/-
What an open mempool stream delivers.

The stream counts what it has sent and takes the count as a place in the monitor's
list.  That works as long as the list it reads only ever grows, which it does
between two changes of the monitor's tip.  A change starts a new list, and the
stream ends because the tip is not the one it started with, unless the monitor comes
back to that tip: then the list is another one under the same tip.

So the condition is about the tips a refresh finds: when one resets the monitor, its
tip is neither the published one nor the one the stream has started with, and no tip
is the empty string that stands for none.
-/
import Lightwalletd.Codec
import Lightwalletd.Service.Mempool

namespace Lightwalletd

/-! ### A refresh

Under one tip the list only grows; a new tip starts a new one.
-/

section

variable [Librustzcash]

/-- No transaction is listed twice, and those that are listed have been seen. -/
structure MonitorState.Distinct (state : MonitorState) : Prop where
  nodup : (state.entries.map (·.txidDisplay)).Nodup
  seen : ∀ entry ∈ state.entries, entry.txidDisplay ∈ state.seen

/-- The second state has the first one's list and maybe more, under the same tip. -/
structure MonitorState.Grown (state state' : MonitorState) : Prop where
  tip : state'.tipHash = state.tipHash
  entries : state.entries <+: state'.entries

omit [Librustzcash] in
theorem MonitorState.distinct_nil (tipHash : String) (seen : List String) :
    MonitorState.Distinct ⟨tipHash, seen, []⟩ :=
  ⟨List.nodup_nil, nofun⟩

omit [Librustzcash] in
theorem MonitorState.Grown.refl (state : MonitorState) : state.Grown state :=
  ⟨rfl, List.prefix_refl _⟩

omit [Librustzcash] in
theorem MonitorState.Grown.trans {a b c : MonitorState} (hab : a.Grown b) (hbc : b.Grown c) :
    a.Grown c :=
  ⟨hbc.tip.trans hab.tip, hab.entries.trans hbc.entries⟩

omit [Librustzcash] in
theorem MonitorState.Distinct.see {state : MonitorState} (h : state.Distinct) (txid : String) :
    MonitorState.Distinct { state with seen := txid :: state.seen } :=
  ⟨h.nodup, fun entry hentry => List.mem_cons_of_mem _ (h.seen entry hentry)⟩

theorem refreshTx_grown (answer : Except NodeError GetRawTransaction) {state : MonitorState}
    (h : state.Distinct) (txid : String) :
    state.Grown (refreshTx answer state txid).1 ∧ (refreshTx answer state txid).1.Distinct := by
  unfold refreshTx
  by_cases hseen : txid ∈ state.seen
  · rw [if_pos hseen]
    exact ⟨MonitorState.Grown.refl _, h⟩
  rw [if_neg hseen]
  rcases answer with error | raw
  · exact ⟨MonitorState.Grown.refl _, h⟩
  have hsame : state.Grown { state with seen := txid :: state.seen } := ⟨rfl, List.prefix_refl _⟩
  simp only
  by_cases hheight : raw.height ≠ 0
  · rw [if_pos hheight]
    exact ⟨hsame, h.see txid⟩
  rw [if_neg hheight]
  rcases hexDecode raw.hex with error | bytes
  · exact ⟨hsame, h.see txid⟩
  rcases displayHexToWire txid with error | wireTxid
  · exact ⟨hsame, h.see txid⟩
  simp only
  rcases compactTxFromRaw state.entries.length bytes with error | compact
  · exact ⟨hsame, h.see txid⟩
  refine ⟨⟨rfl, List.prefix_append _ _⟩, ?_, ?_⟩
  · -- The new transaction has not been seen, and those listed have.
    rw [List.map_append, List.nodup_append]
    refine ⟨h.nodup, List.nodup_singleton _, ?_⟩
    intro old hold new hnew
    obtain ⟨entry, hentry, rfl⟩ := List.mem_map.mp hold
    obtain rfl := List.mem_singleton.mp hnew
    exact fun heq => hseen (heq ▸ h.seen entry hentry)
  · intro entry hentry
    rcases List.mem_append.mp hentry with hold | hnew
    · exact List.mem_cons_of_mem _ (h.seen entry hold)
    · obtain rfl := List.mem_singleton.mp hnew
      exact List.mem_cons_self

theorem refreshTxs_grown (answers : RefreshAnswers) :
    ∀ (txids : List String) (place : Nat) (state : MonitorState), state.Distinct →
      state.Grown (refreshTxs answers place state txids).1 ∧
        (refreshTxs answers place state txids).1.Distinct := by
  intro txids
  induction txids with
  | nil =>
      intro place state h
      exact ⟨MonitorState.Grown.refl _, h⟩
  | cons txid txids ih =>
      intro place state h
      rw [refreshTxs]
      obtain ⟨hgrown, hdistinct⟩ := refreshTx_grown (answers.rawTransaction place) h txid
      rcases hstep : refreshTx (answers.rawTransaction place) state txid with ⟨state', error | u⟩
      · rw [hstep] at hgrown hdistinct
        exact ⟨hgrown, hdistinct⟩
      · rw [hstep] at hgrown hdistinct
        obtain ⟨hrest, hdistinct'⟩ := ih (place + 1) state' hdistinct
        exact ⟨hgrown.trans hrest, hdistinct'⟩

omit [Librustzcash] in
theorem MonitorState.Distinct.atTip {state : MonitorState} (h : state.Distinct)
    (bestblockhash : String) : (state.atTip bestblockhash).Distinct := by
  unfold MonitorState.atTip
  by_cases hreset : bestblockhash ≠ state.tipHash
  · rw [if_pos hreset]
    exact distinct_nil _ _
  · rw [if_neg hreset]
    exact h

/-- What a refresh can do: nothing, or grow the list it finds under the node's tip; it
publishes that list if it succeeds. -/
theorem refresh_cases (answers : RefreshAnswers) (now : Nat) {state : MonitorState}
    (h : state.Distinct) :
    (∃ error, refresh answers now state = (state, .error error)) ∨
      ∃ info state' result, answers.blockchainInfo = .ok info ∧
        refresh answers now state = (state', result) ∧
        (state.atTip info.bestblockhash).Grown state' ∧ state'.Distinct ∧
        ((∃ error, result = .error error) ∨
          result = .ok (MempoolSnapshot.fresh state'.tipHash state'.entries now)) := by
  unfold refresh
  rcases answers.blockchainInfo with error | info
  · exact Or.inl ⟨_, rfl⟩
  refine Or.inr ⟨info, ?_⟩
  simp only
  have hdistinct := h.atTip info.bestblockhash
  rcases answers.rawMempool with error | txids
  · exact ⟨_, _, trivial, rfl, MonitorState.Grown.refl _, hdistinct, Or.inl ⟨_, rfl⟩⟩
  simp only
  obtain ⟨hgrown, hdistinct'⟩ := refreshTxs_grown answers txids 0 _ hdistinct
  rcases hloop :
    refreshTxs answers 0 (state.atTip info.bestblockhash) txids with ⟨state', error | u⟩
  · rw [hloop] at hgrown hdistinct'
    exact ⟨state', _, trivial, rfl, hgrown, hdistinct', Or.inl ⟨_, rfl⟩⟩
  · rw [hloop] at hgrown hdistinct'
    exact ⟨state', _, trivial, rfl, hgrown, hdistinct', Or.inr rfl⟩

end

/-! ### The monitor and one stream

The stream reads the channel when it is woken up, and may have slept through any number
of snapshots.
-/

/-- Where the stream stands. -/
inductive StreamPhase
  | unopened
  | serving (stream : MempoolStream)
  | ended

/-- The monitor, the snapshot in the channel, and one stream, with the entries it has
yielded and the snapshots it has gone through without ending. -/
structure MempoolSystem where
  clock : Nat
  monitor : MonitorState
  published : MempoolSnapshot
  phase : StreamPhase
  emitted : List MempoolEntry
  processed : List MempoolSnapshot

namespace MempoolSystem

def init : MempoolSystem where
  clock := 0
  monitor := MonitorState.empty
  published := MempoolSnapshot.empty
  phase := .unopened
  emitted := []
  processed := []

def refresh [Librustzcash] (system : MempoolSystem) (answers : RefreshAnswers) : MempoolSystem :=
  match Lightwalletd.refresh answers system.clock system.monitor with
  | (monitor, .ok snapshot) => { system with monitor := monitor, published := snapshot }
  | (monitor, .error _) => { system with monitor := monitor }

def serve (system : MempoolSystem) (stream : MempoolStream) : MempoolSystem :=
  match stream.wake system.published system.clock with
  | .failed _ => { system with phase := .ended }
  | .finished => { system with phase := .ended }
  | .yielded entries stream =>
      { system with
        phase := .serving stream
        emitted := system.emitted ++ entries
        processed := system.published :: system.processed }

/-- The stream is opened, or wakes up. -/
def wake (system : MempoolSystem) : MempoolSystem :=
  match system.phase with
  | .unopened => system.serve MempoolStream.new
  | .serving stream => system.serve stream
  | .ended => system

/-- The tip a refresh finds is one, and if it resets the monitor, it is neither the
published one nor the one the stream has started with. -/
def TipIsNew (system : MempoolSystem) (answers : RefreshAnswers) : Prop :=
  ∀ info, answers.blockchainInfo = .ok info → info.bestblockhash ≠ "" ∧
    (info.bestblockhash ≠ system.monitor.tipHash →
      info.bestblockhash ≠ system.published.tipHash ∧
      ∀ stream, system.phase = .serving stream → info.bestblockhash ≠ stream.startTip)

end MempoolSystem

/-- The states of the runs all of whose refreshes meet `condition`. -/
inductive MempoolReachable [Librustzcash] (condition : MempoolSystem → RefreshAnswers → Prop) :
    MempoolSystem → Prop
  | init : MempoolReachable condition MempoolSystem.init
  | refresh {system : MempoolSystem} (h : MempoolReachable condition system)
      (answers : RefreshAnswers) (hanswers : condition system answers) :
      MempoolReachable condition (system.refresh answers)
  | wake {system : MempoolSystem} (h : MempoolReachable condition system) :
      MempoolReachable condition system.wake
  | pass {system : MempoolSystem} (h : MempoolReachable condition system) (time : Nat) :
      MempoolReachable condition { system with clock := system.clock + time }

/-! ### The invariant

A list the stream goes on with has to start with what the stream has yielded.  Under the
monitor's tip it does because lists grow, and a snapshot of another tip ends the stream.
-/

namespace MempoolSystem

/-- What the stream has yielded is the beginning of any list under its own tip. -/
structure StreamOk (system : MempoolSystem) (stream : MempoolStream) : Prop where
  tip : stream.startTip ≠ ""
  sent : stream.sent = system.emitted.length
  published : stream.startTip = system.published.tipHash →
    system.emitted <+: system.published.entries
  monitor : stream.startTip = system.monitor.tipHash → system.emitted <+: system.monitor.entries

structure Inv (system : MempoolSystem) : Prop where
  monitor : system.monitor.Distinct
  published : (system.published.entries.map (·.txidDisplay)).Nodup
  publishedTip : system.published.refreshedAt ≠ none → system.published.tipHash ≠ ""
  ahead : system.published.tipHash = system.monitor.tipHash →
    system.published.entries <+: system.monitor.entries
  unopened : system.phase = .unopened → system.emitted = []
  serving : ∀ stream, system.phase = .serving stream → system.StreamOk stream
  emitted : (system.emitted.map (·.txidDisplay)).Nodup
  processed : ∀ snapshot ∈ system.processed, ∀ entry ∈ snapshot.entries, entry ∈ system.emitted

variable {system : MempoolSystem}

private theorem inv_init : init.Inv where
  monitor := MonitorState.distinct_nil _ _
  published := List.nodup_nil
  publishedTip := by simp [init, MempoolSnapshot.empty]
  ahead _ := List.prefix_refl _
  unopened _ := rfl
  serving := nofun
  emitted := List.nodup_nil
  processed := nofun

theorem Inv.refresh [Librustzcash] (h : system.Inv) {answers : RefreshAnswers}
    (hnew : system.TipIsNew answers) : (system.refresh answers).Inv := by
  unfold MempoolSystem.refresh
  rcases refresh_cases answers system.clock h.monitor with
    ⟨error, heq⟩ | ⟨info, state', result, hinfo, heq, hgrown, hdistinct, hresult⟩
  · rw [heq]
    exact { h with }
  rw [heq]
  obtain ⟨htip, hreset⟩ := hnew info hinfo
  have htip' : state'.tipHash = info.bestblockhash := by
    rw [hgrown.tip, MonitorState.atTip]
    by_cases hne : info.bestblockhash ≠ system.monitor.tipHash
    · rw [if_pos hne]
    · rw [if_neg hne]
      exact (not_not.mp hne).symm
  -- Lists under the new tip are beginnings of the new list.
  have hlist : ∀ entries, (info.bestblockhash = system.monitor.tipHash →
      entries <+: system.monitor.entries) → info.bestblockhash = system.monitor.tipHash →
      entries <+: state'.entries := by
    intro entries hentries hsame
    refine (hentries hsame).trans ?_
    have hkept := hgrown.entries
    rwa [MonitorState.atTip, if_neg (not_not_intro hsame)] at hkept
  have hpublished : system.published.tipHash = state'.tipHash →
      system.published.entries <+: state'.entries := by
    intro hsame
    rw [htip'] at hsame
    by_cases hkeep : info.bestblockhash = system.monitor.tipHash
    · exact hlist _ (fun hm => h.ahead (hsame.trans hm)) hkeep
    · exact absurd hsame.symm (hreset hkeep).1
  have hstream : ∀ stream, system.phase = .serving stream → stream.startTip = state'.tipHash →
      system.emitted <+: state'.entries := by
    intro stream hphase hsame
    rw [htip'] at hsame
    by_cases hkeep : info.bestblockhash = system.monitor.tipHash
    · exact hlist _ (fun hm => (h.serving stream hphase).monitor (hsame.trans hm)) hkeep
    · exact absurd hsame.symm ((hreset hkeep).2 stream hphase)
  rcases hresult with ⟨error, rfl⟩ | rfl
  · refine { h with monitor := hdistinct, ahead := hpublished, serving := ?_ }
    intro stream hphase
    have hok := h.serving stream hphase
    exact ⟨hok.tip, hok.sent, hok.published, hstream stream hphase⟩
  · refine { h with
      monitor := hdistinct, published := hdistinct.nodup
      publishedTip := fun _ => ?_, ahead := fun _ => List.prefix_refl _, serving := ?_ }
    · show state'.tipHash ≠ ""
      rw [htip']
      exact htip
    · intro stream hphase
      have hok := h.serving stream hphase
      exact ⟨hok.tip, hok.sent, hstream stream hphase, hstream stream hphase⟩

/-- What a stream yields completes the list, once it is up to date. -/
theorem Inv.caughtUp (h : system.Inv) (htip : system.published.tipHash ≠ "") {startTip : String}
    (hsame : startTip = system.published.tipHash) {emitted : List MempoolEntry}
    (hall : emitted = system.published.entries) (hkept : system.emitted <+: emitted) :
    { system with
      phase := .serving ⟨startTip, system.published.entries.length⟩
      emitted := emitted
      processed := system.published :: system.processed }.Inv := by
  subst hsame hall
  refine { h with unopened := nofun, serving := ?_, emitted := h.published, processed := ?_ }
  · rintro stream ⟨⟩
    exact ⟨htip, rfl, fun _ => List.prefix_refl _, h.ahead⟩
  · intro snapshot hsnapshot entry hentry
    rcases List.mem_cons.mp hsnapshot with rfl | hold
    · exact hentry
    · exact hkept.subset (h.processed snapshot hold entry hentry)

theorem Inv.wake (h : system.Inv) : system.wake.Inv := by
  have hended : { system with phase := .ended }.Inv :=
      { h with unopened := nofun, serving := nofun }
  have hfresh : system.published.isStale system.clock = false → system.published.tipHash ≠ "" := by
    intro hstale
    refine h.publishedTip fun hnone => ?_
    rw [MempoolSnapshot.isStale, hnone] at hstale
    cases hstale
  unfold MempoolSystem.wake
  rcases hphase : system.phase with _ | stream | _
  · simp only [serve, MempoolStream.wake, MempoolStream.new, if_true, List.drop_zero]
    rcases hstale : system.published.isStale system.clock
    · have hnone := h.unopened hphase
      refine h.caughtUp (hfresh hstale) rfl ?_ ?_
      · rw [hnone, List.nil_append]
      · rw [hnone]
        exact List.nil_prefix
    · exact hended
  · have hok := h.serving stream hphase
    simp only [serve, MempoolStream.wake, if_neg hok.tip]
    rcases hstale : system.published.isStale system.clock
    · by_cases htip : system.published.tipHash = stream.startTip
      · simp only [htip, ne_eq, not_true_eq_false, if_false]
        have hbegun := hok.published htip.symm
        have hall : system.emitted ++ system.published.entries.drop stream.sent
            = system.published.entries := by
          rw [hok.sent]
          exact List.prefix_iff_eq_append.mp hbegun
        refine h.caughtUp (hfresh hstale) htip.symm hall ?_
        rw [hall]
        exact hbegun
      · simp only [ne_eq, htip, not_false_eq_true, if_true]
        exact hended
    · exact hended
  · exact h

end MempoolSystem

/--
**An open stream delivers exactly once**, in every run whose refreshes find tips that
are new when they reset the monitor: it yields no transaction twice, and all entries
of every snapshot it goes through.
-/
theorem mempool_exactly_once [Librustzcash] {system : MempoolSystem}
    (h : MempoolReachable MempoolSystem.TipIsNew system) :
    (system.emitted.map (·.txidDisplay)).Nodup ∧
      ∀ snapshot ∈ system.processed, ∀ entry ∈ snapshot.entries, entry ∈ system.emitted := by
  have hinv : system.Inv := by
    induction h with
    | init => exact MempoolSystem.inv_init
    | refresh _ answers hanswers ih => exact ih.refresh hanswers
    | wake _ ih => exact ih.wake
    | pass _ time ih =>
        refine { ih with serving := ?_ }
        intro stream hphase
        have hok := ih.serving stream hphase
        exact ⟨hok.tip, hok.sent, hok.published, hok.monitor⟩
  exact ⟨hinv.emitted, hinv.processed⟩

/-! ### Two runs -/

/-- The txid of a transaction, as the node lists it. -/
def listedTxid (raw : Bytes) : String := wireToDisplayHex (sha256d raw)

/-- A node at `tip` whose mempool holds `raws`. -/
def mempoolOf (tip : String) (raws : List Bytes) : RefreshAnswers where
  blockchainInfo := .ok ⟨"main", 1, tip⟩
  rawMempool := .ok (raws.map listedTxid)
  rawTransaction place := .ok ⟨hexEncode (raws.getD place []), 0⟩

/-- A node at `tip` that does not list its mempool. -/
def mempoolBusy (tip : String) : RefreshAnswers where
  blockchainInfo := .ok ⟨"main", 1, tip⟩
  rawMempool := .error .emptyResult
  rawTransaction _ := .error .emptyResult

/-- A stream over one interval in which a second transaction arrives. -/
def growingMempool : MempoolSystem :=
  (((MempoolSystem.init.refresh (mempoolOf "aa" [coinbaseTx 1])).wake).refresh
    (mempoolOf "aa" [coinbaseTx 1, coinbaseTx 2])).wake

theorem growingMempool_once :
    growingMempool.emitted.map (·.txidDisplay)
      = [listedTxid (coinbaseTx 1), listedTxid (coinbaseTx 2)] ∧
    (growingMempool.emitted.map (·.txidDisplay)).Nodup := by
  have hreach : MempoolReachable MempoolSystem.TipIsNew growingMempool := by
    refine (((MempoolReachable.init.refresh _ ?_).wake).refresh _ ?_).wake
    · rintro info ⟨⟩
      exact ⟨by decide, fun _ => ⟨by decide, nofun⟩⟩
    · rintro info ⟨⟩
      refine ⟨by decide, fun hreset => absurd ?_ hreset⟩
      decide +kernel
  exact ⟨by decide +kernel, (mempool_exactly_once hreach).1⟩

/-- The node goes from one tip to another, on which it fails, and back, with a second
transaction now listed first. -/
def returningMempool : MempoolSystem :=
  ((((MempoolSystem.init.refresh (mempoolOf "aa" [coinbaseTx 1])).wake).refresh
    (mempoolBusy "bb")).refresh (mempoolOf "aa" [coinbaseTx 2, coinbaseTx 1])).wake

theorem returningMempool_twice :
    MempoolReachable (fun _ _ => True) returningMempool ∧
      ¬ (returningMempool.emitted.map (·.txidDisplay)).Nodup ∧
      ∃ snapshot ∈ returningMempool.processed, ∃ entry ∈ snapshot.entries,
        entry ∉ returningMempool.emitted := by
  refine ⟨?_, by decide +kernel, by decide +kernel⟩
  exact (((((MempoolReachable.init.refresh _ trivial).wake).refresh _ trivial).refresh _
    trivial).wake)

end Lightwalletd
