/-
What the mempool monitor accumulates.

The monitor is run here with a record of the fetches it has made since it adopted its
tip, and that record is what its state is a summary of: a transaction has been seen if
some fetch of it succeeded, and it is in the list if its fetches were all good.  One
listed transaction is what a refresh does at a time, so every invariant is a fact about
`refreshTx`, and it holds wherever a refresh fails.
-/
import Lightwalletd.Proofs.Mempool

namespace Lightwalletd

section

variable [Librustzcash]

/-! ### The monitor with its fetches

The record of the fetches is no part of the monitor, and changes nothing it does.
-/

deriving instance DecidableEq for GetRawTransaction

/-- The monitor's state, and the fetches made since its tip was adopted. -/
structure Monitor where
  state : MonitorState
  fetched : List (String × Except NodeError GetRawTransaction)
  deriving DecidableEq

/-- What one refresh gets to see, and when it ends. -/
structure Round where
  answers : RefreshAnswers
  now : Nat

namespace Monitor

def empty : Monitor := ⟨MonitorState.empty, []⟩

/-- `refreshTx`, with its fetch on record. -/
def refreshTx (answer : Except NodeError GetRawTransaction) (monitor : Monitor) (txid : String) :
    Monitor × Except RefreshError Unit :=
  let fetched := if txid ∈ monitor.state.seen then [] else [(txid, answer)]
  let (state, result) := Lightwalletd.refreshTx answer monitor.state txid
  (⟨state, monitor.fetched ++ fetched⟩, result)

/-- `refreshTxs`, with its fetches on record. -/
def refreshTxs (answers : RefreshAnswers) :
    Nat → Monitor → List String → Monitor × Except RefreshError Unit
  | _, monitor, [] => (monitor, .ok ())
  | place, monitor, txid :: txids =>
      match monitor.refreshTx (answers.rawTransaction place) txid with
      | (monitor, .error error) => (monitor, .error error)
      | (monitor, .ok ()) => refreshTxs answers (place + 1) monitor txids

/-- A new tip starts a new record. -/
def atTip (monitor : Monitor) (bestblockhash : String) : Monitor where
  state := monitor.state.atTip bestblockhash
  fetched := if bestblockhash ≠ monitor.state.tipHash then [] else monitor.fetched

/-- `refresh`, with its fetches on record. -/
def refresh (monitor : Monitor) (round : Round) :
    Monitor × Except RefreshError MempoolSnapshot :=
  match round.answers.blockchainInfo with
  | .error error => (monitor, .error (.node error))
  | .ok info =>
      match round.answers.rawMempool with
      | .error error => (monitor.atTip info.bestblockhash, .error (.node error))
      | .ok txids =>
          match (monitor.atTip info.bestblockhash).refreshTxs round.answers 0 txids with
          | (monitor, .error error) => (monitor, .error error)
          | (monitor, .ok ()) =>
              (monitor, .ok (.fresh monitor.state.tipHash monitor.state.entries round.now))

def run (monitor : Monitor) (rounds : List Round) : Monitor :=
  rounds.foldl (fun monitor round => (monitor.refresh round).1) monitor

theorem refreshTxs_eq (answers : RefreshAnswers) : ∀ (txids : List String) (place : Nat)
    (monitor : Monitor), Lightwalletd.refreshTxs answers place monitor.state txids
      = ((monitor.refreshTxs answers place txids).1.state,
          (monitor.refreshTxs answers place txids).2) := by
  intro txids
  induction txids with
  | nil => exact fun place monitor => rfl
  | cons txid txids ih =>
      intro place monitor
      unfold Lightwalletd.refreshTxs refreshTxs refreshTx
      rcases Lightwalletd.refreshTx (answers.rawTransaction place) monitor.state txid with
        ⟨state, error | u⟩
      · rfl
      · exact ih (place + 1) ⟨state, _⟩

/-- The record changes nothing. -/
theorem refresh_eq (monitor : Monitor) (round : Round) :
    Lightwalletd.refresh round.answers round.now monitor.state
      = ((monitor.refresh round).1.state, (monitor.refresh round).2) := by
  unfold Lightwalletd.refresh refresh
  rcases round.answers.blockchainInfo with error | info
  · rfl
  rcases round.answers.rawMempool with error | txids
  · rfl
  have hloop := refreshTxs_eq round.answers txids 0 (monitor.atTip info.bestblockhash)
  simp only [show monitor.state.atTip info.bestblockhash
    = (monitor.atTip info.bestblockhash).state from rfl, hloop]
  rcases (monitor.atTip info.bestblockhash).refreshTxs round.answers 0 txids with ⟨after, error | u⟩
  · rfl
  · rfl

end Monitor

/-! ### One transaction -/

/-- A fetch that brought a transaction of the mempool. -/
def GoodFetch (answer : Except NodeError GetRawTransaction) : Prop :=
  ∃ raw bytes compact, answer = .ok raw ∧ raw.height = 0 ∧ hexDecode raw.hex = .ok bytes ∧
    compactTxFromRaw 0 bytes = .ok compact

/-- The entry is what parsing its own bytes gives at this place. -/
structure MempoolEntry.At (place : Nat) (entry : MempoolEntry) : Prop where
  wire : ∃ bytes, hexDecode entry.txidDisplay = .ok bytes ∧ entry.wireTxid = bytes.reverse
  compact : compactTxFromRaw place entry.raw = .ok entry.compact

theorem compactTxFromRaw_eq_ok {place : Nat} {raw : Bytes} {compact : CompactTx} :
    compactTxFromRaw place raw = .ok compact ↔ ∃ tx rest,
      Librustzcash.readTransaction raw = .ok (tx, rest) ∧ compact = toCompactTx place tx false := by
  unfold compactTxFromRaw
  simp only [Except.bind_eq_ok, Except.mapError_eq_ok, Except.pure_eq_ok, Prod.exists]
  constructor
  · rintro ⟨tx, rest, hread, rfl⟩
    exact ⟨tx, rest, hread, rfl⟩
  · rintro ⟨tx, rest, hread, rfl⟩
    exact ⟨tx, rest, hread, rfl⟩

theorem MempoolEntry.At.index {place : Nat} {entry : MempoolEntry} (h : entry.At place) :
    entry.compact.index = place := by
  obtain ⟨tx, rest, -, heq⟩ := compactTxFromRaw_eq_ok.mp h.compact
  rw [heq]
  rfl

/-- What happens to one listed transaction that has not been seen: its fetch fails and
nothing changes, or it is seen, and listed at the end if all of it can be decoded. -/
theorem refreshTx_cases (answer : Except NodeError GetRawTransaction) {state : MonitorState}
    {txid : String} (hnew : txid ∉ state.seen) :
    (∃ error, answer = .error error ∧ refreshTx answer state txid = (state, .ok ())) ∨
    ∃ raw, answer = .ok raw ∧
      ((∃ result, refreshTx answer state txid
          = ({ state with seen := txid :: state.seen }, result) ∧
          ¬(GoodFetch answer ∧ ∃ bytes, hexDecode txid = .ok bytes)) ∨
        ∃ entry : MempoolEntry, entry.txidDisplay = txid ∧ hexDecode raw.hex = .ok entry.raw ∧
          entry.At state.entries.length ∧ refreshTx answer state txid
            = ({ state with seen := txid :: state.seen, entries := state.entries ++ [entry] },
                .ok ())) := by
  unfold refreshTx
  rw [if_neg hnew]
  rcases answer with error | raw
  · exact Or.inl ⟨error, rfl, rfl⟩
  refine Or.inr ⟨raw, rfl, ?_⟩
  simp only
  by_cases hheight : raw.height = 0
  · rw [if_neg (not_not_intro hheight)]
    rcases hhex : hexDecode raw.hex with error | bytes
    · refine Or.inl ⟨_, rfl, ?_⟩
      rintro ⟨⟨_, _, _, heq, -, hbytes, -⟩, -⟩
      cases heq
      cases hhex.symm.trans hbytes
    rcases hwire : displayHexToWire txid with error | wireTxid
    · refine Or.inl ⟨_, rfl, ?_⟩
      rintro ⟨-, decoded, hdecoded⟩
      exact absurd (hwire.symm.trans (displayHexToWire_eq_ok.mpr ⟨decoded, hdecoded, rfl⟩)) nofun
    simp only
    rcases hparse : compactTxFromRaw state.entries.length bytes with error | compact
    · refine Or.inl ⟨_, rfl, ?_⟩
      rintro ⟨⟨_, _, _, heq, -, hbytes, hcompact⟩, -⟩
      cases heq
      obtain rfl := Except.ok.inj (hhex.symm.trans hbytes)
      obtain ⟨tx, rest, hread, -⟩ := compactTxFromRaw_eq_ok.mp hcompact
      exact absurd (hparse.symm.trans (compactTxFromRaw_eq_ok.mpr ⟨tx, rest, hread, rfl⟩)) nofun
    · exact Or.inr ⟨⟨txid, wireTxid, bytes, compact⟩, rfl, rfl,
        ⟨displayHexToWire_eq_ok.mp hwire, hparse⟩, rfl⟩
  · rw [if_pos hheight]
    refine Or.inl ⟨_, rfl, ?_⟩
    rintro ⟨⟨_, _, _, heq, hzero, -⟩, -⟩
    cases heq
    exact hheight hzero

/-! ### The invariant

What has been seen and what is listed can be read off the record.
-/

namespace Monitor

structure Inv (monitor : Monitor) : Prop where
  distinct : monitor.state.Distinct
  entries : ∀ place (entry : MempoolEntry),
    monitor.state.entries[place]? = some entry → entry.At place
  seen : ∀ txid, txid ∈ monitor.state.seen ↔ ∃ raw, (txid, .ok raw) ∈ monitor.fetched
  listed : ∀ txid answer, (txid, answer) ∈ monitor.fetched →
    (∀ answer, (txid, answer) ∈ monitor.fetched → GoodFetch answer) →
    (∃ bytes, hexDecode txid = .ok bytes) →
    txid ∈ monitor.state.entries.map (·.txidDisplay)

theorem inv_empty (tipHash : String) : Inv ⟨⟨tipHash, [], []⟩, []⟩ :=
  ⟨MonitorState.distinct_nil _ _, fun _ _ h => by simp at h, fun _ => by simp,
    fun _ _ h => by simp at h⟩

theorem Inv.record {monitor : Monitor} (h : monitor.Inv)
    {answer : Except NodeError GetRawTransaction} {txid : String} {state : MonitorState}
    (hdistinct : state.Distinct) (hkept : monitor.state.entries <+: state.entries)
    (hentries : ∀ place (entry : MempoolEntry), state.entries[place]? = some entry → entry.At place)
    (hseen : ∀ other, other ∈ state.seen ↔
      other ∈ monitor.state.seen ∨ other = txid ∧ ∃ raw, answer = .ok raw)
    (hlisted : GoodFetch answer → (∃ bytes, hexDecode txid = .ok bytes) →
      txid ∈ state.entries.map (·.txidDisplay)) :
    Inv ⟨state, monitor.fetched ++ [(txid, answer)]⟩ := by
  refine ⟨hdistinct, hentries, fun other => ?_, fun other found hfound hgood hdecoded => ?_⟩
  · rw [hseen, h.seen]
    simp only [List.mem_append, List.mem_singleton, Prod.mk.injEq]
    constructor
    · rintro (⟨raw, hold⟩ | ⟨rfl, raw, rfl⟩)
      · exact ⟨raw, Or.inl hold⟩
      · exact ⟨raw, Or.inr ⟨rfl, rfl⟩⟩
    · rintro ⟨raw, hold | ⟨rfl, hraw⟩⟩
      · exact Or.inl ⟨raw, hold⟩
      · exact Or.inr ⟨rfl, raw, hraw.symm⟩
  · by_cases hthis : other = txid
    · subst hthis
      exact hlisted (hgood _ (List.mem_append_right _ (List.mem_singleton_self _))) hdecoded
    · have hold : (other, found) ∈ monitor.fetched := by simpa [hthis] using hfound
      have hin := h.listed other found hold
        (fun answer hanswer => hgood answer (List.mem_append_left _ hanswer)) hdecoded
      exact (hkept.map _).subset hin

theorem Inv.refreshTx {monitor : Monitor} (h : monitor.Inv)
    (answer : Except NodeError GetRawTransaction) (txid : String) :
    (monitor.refreshTx answer txid).1.Inv := by
  have hdistinct := (refreshTx_grown answer h.distinct txid).2
  unfold Monitor.refreshTx
  by_cases hseen : txid ∈ monitor.state.seen
  · have hrun : Lightwalletd.refreshTx answer monitor.state txid = (monitor.state, .ok ()) := by
      unfold Lightwalletd.refreshTx
      rw [if_pos hseen]
    rw [if_pos hseen, hrun]
    simpa only [List.append_nil] using h
  rw [if_neg hseen]
  rcases refreshTx_cases answer hseen with
    ⟨error, rfl, hrun⟩ | ⟨raw, rfl, ⟨result, hrun, hbad⟩ | ⟨entry, rfl, -, hat, hrun⟩⟩
  · rw [hrun]
    refine h.record h.distinct (List.prefix_refl _) h.entries (fun other => ?_) ?_
    · simp
    · rintro ⟨_, _, _, heq, -⟩
      cases heq
  · rw [hrun] at hdistinct ⊢
    refine h.record hdistinct (List.prefix_refl _) h.entries (fun other => ?_) ?_
    · simp [or_comm]
    · exact fun hgood hdecoded => absurd ⟨hgood, hdecoded⟩ hbad
  · rw [hrun] at hdistinct ⊢
    refine h.record hdistinct (List.prefix_append _ _) (fun place other hother => ?_)
      (fun other => ?_) ?_
    · rcases Nat.lt_or_ge place monitor.state.entries.length with hlt | hge
      · rw [List.getElem?_append_left hlt] at hother
        exact h.entries place other hother
      · rw [List.getElem?_append_right hge] at hother
        have hlast := (List.getElem?_eq_some_iff.mp hother).1
        rw [List.length_singleton] at hlast
        obtain rfl : place = monitor.state.entries.length := by omega
        rw [Nat.sub_self, List.getElem?_cons_zero] at hother
        exact Option.some.inj hother ▸ hat
    · simp [or_comm]
    · exact fun _ _ => List.mem_map_of_mem (List.mem_append_right _ (List.mem_singleton_self _))

/-! ### A whole refresh -/

theorem Inv.refreshTxs (answers : RefreshAnswers) : ∀ (txids : List String) (place : Nat)
    {monitor : Monitor}, monitor.Inv → (monitor.refreshTxs answers place txids).1.Inv := by
  intro txids
  induction txids with
  | nil => exact fun place monitor h => h
  | cons txid txids ih =>
      intro place monitor h
      have hstep := h.refreshTx (answers.rawTransaction place) txid
      unfold Monitor.refreshTxs
      rcases hrun : monitor.refreshTx (answers.rawTransaction place) txid with ⟨next, error | u⟩
      · rwa [hrun] at hstep
      · rw [hrun] at hstep
        exact ih (place + 1) hstep

theorem Inv.atTip {monitor : Monitor} (h : monitor.Inv) (bestblockhash : String) :
    (monitor.atTip bestblockhash).Inv := by
  unfold Monitor.atTip MonitorState.atTip
  by_cases hreset : bestblockhash ≠ monitor.state.tipHash
  · rw [if_pos hreset, if_pos hreset]
    exact inv_empty bestblockhash
  · rw [if_neg hreset, if_neg hreset]
    exact h

/-- Wherever it fails, a refresh keeps the invariant. -/
theorem Inv.refresh {monitor : Monitor} (h : monitor.Inv) (round : Round) :
    (monitor.refresh round).1.Inv := by
  unfold Monitor.refresh
  rcases round.answers.blockchainInfo with error | info
  · exact h
  rcases round.answers.rawMempool with error | txids
  · exact h.atTip info.bestblockhash
  have hloop := (h.atTip info.bestblockhash).refreshTxs round.answers txids 0
  rcases hrun : (monitor.atTip info.bestblockhash).refreshTxs round.answers 0 txids with
    ⟨after, error | u⟩
  · simp only [hrun]
    rwa [hrun] at hloop
  · simp only [hrun]
    rwa [hrun] at hloop

theorem run_inv (rounds : List Round) : (empty.run rounds).Inv := by
  have hkeeps : ∀ (rounds : List Round) (monitor : Monitor), monitor.Inv →
      (monitor.run rounds).Inv := by
    intro rounds
    induction rounds with
    | nil => exact fun monitor h => h
    | cons round rest ih => exact fun monitor h => ih _ (h.refresh round)
  exact hkeeps rounds empty (inv_empty "")

theorem Inv.refresh_prefix {monitor : Monitor} (h : monitor.Inv) (round : Round)
    (htip : ∀ info, round.answers.blockchainInfo = .ok info →
      info.bestblockhash = monitor.state.tipHash) :
    monitor.state.Grown (monitor.refresh round).1.state := by
  have hstate : (monitor.refresh round).1.state
      = (Lightwalletd.refresh round.answers round.now monitor.state).1 := by
    rw [refresh_eq]
  rw [hstate]
  rcases refresh_cases round.answers round.now h.distinct with
    ⟨error, hrun⟩ | ⟨info, state', result, hinfo, hrun, hgrown, -⟩
  · rw [hrun]
    exact MonitorState.Grown.refl _
  · rw [hrun]
    have hsame : monitor.state.atTip info.bestblockhash = monitor.state := by
      unfold MonitorState.atTip
      rw [if_neg (not_not_intro (htip info hinfo))]
    rwa [hsame] at hgrown

/-! ### Fetching again

A transaction whose fetch failed has not been seen, and the next refresh asks for it
once more.
-/

private theorem refreshTxs_append (answers : RefreshAnswers) (after : List String) :
    ∀ (before : List String) (place : Nat) (monitor : Monitor),
      (monitor.refreshTxs answers place before).2 = .ok () →
      monitor.refreshTxs answers place (before ++ after)
        = (monitor.refreshTxs answers place before).1.refreshTxs answers (place + before.length)
            after := by
  intro before
  induction before with
  | nil => exact fun place monitor _ => rfl
  | cons txid before ih =>
      intro place monitor hok
      have hstep : ∀ rest, monitor.refreshTxs answers place (txid :: rest)
          = match monitor.refreshTx (answers.rawTransaction place) txid with
            | (monitor, .error error) => (monitor, .error error)
            | (monitor, .ok ()) => refreshTxs answers (place + 1) monitor rest := fun _ => rfl
      rw [hstep] at hok
      rw [List.cons_append, hstep, hstep, List.length_cons, Nat.add_comm before.length,
        ← Nat.add_assoc]
      rcases hrun : monitor.refreshTx (answers.rawTransaction place) txid with ⟨next, error | u⟩
      · rw [hrun] at hok
        cases hok
      · rw [hrun] at hok
        exact ih (place + 1) next hok

theorem refreshTxs_record (answers : RefreshAnswers) : ∀ (txids : List String) (place : Nat)
    (monitor : Monitor),
      monitor.fetched <+: (monitor.refreshTxs answers place txids).1.fetched := by
  intro txids
  induction txids with
  | nil => exact fun place monitor => List.prefix_refl _
  | cons txid txids ih =>
      intro place monitor
      have hstep : monitor.fetched
          <+: (monitor.refreshTx (answers.rawTransaction place) txid).1.fetched :=
        List.prefix_append _ _
      unfold refreshTxs
      rcases hrun : monitor.refreshTx (answers.rawTransaction place) txid with ⟨next, error | u⟩
      · rwa [hrun] at hstep
      · rw [hrun] at hstep
        exact hstep.trans (ih (place + 1) next)

/-- A transaction that has not been seen is fetched, if the loop gets that far. -/
theorem Inv.refreshTxs_fetches {monitor : Monitor} (h : monitor.Inv) (answers : RefreshAnswers)
    {before : List String} (after : List String) {txid : String} (hnew : txid ∉ monitor.state.seen)
    (hreached : (monitor.refreshTxs answers 0 before).2 = .ok ()) :
    ∃ new answer, (monitor.refreshTxs answers 0 (before ++ txid :: after)).1.fetched
      = monitor.fetched ++ new ∧ (txid, answer) ∈ new := by
  obtain ⟨new, hnew'⟩ := refreshTxs_record answers (before ++ txid :: after) 0 monitor
  refine ⟨new, ?_⟩
  have hmid := h.refreshTxs answers before 0
  have hrun := refreshTxs_append answers (txid :: after) before 0 monitor hreached
  obtain ⟨first, hfirst⟩ := refreshTxs_record answers before 0 monitor
  -- Fetched on the way or at its own place, it is in what is new.
  have hfetched : ∃ answer, (txid, answer) ∈ (monitor.refreshTxs answers 0
        (before ++ txid :: after)).1.fetched ∧ (txid, answer) ∉ monitor.fetched ∨
      (monitor.refreshTxs answers 0 before).1.fetched ++ [(txid, answer)]
        <+: (monitor.refreshTxs answers 0 (before ++ txid :: after)).1.fetched := by
    by_cases hseen : txid ∈ (monitor.refreshTxs answers 0 before).1.state.seen
    · obtain ⟨raw, hraw⟩ := (hmid.seen txid).mp hseen
      refine ⟨.ok raw, Or.inl ⟨?_, fun hold => hnew ((h.seen txid).mpr ⟨raw, hold⟩)⟩⟩
      rw [hrun]
      exact (refreshTxs_record answers _ _ _).subset hraw
    · refine ⟨answers.rawTransaction (0 + before.length), Or.inr ?_⟩
      rw [hrun]
      have hstep : ((monitor.refreshTxs answers 0 before).1.refreshTx
          (answers.rawTransaction (0 + before.length)) txid).1.fetched
          = (monitor.refreshTxs answers 0 before).1.fetched
            ++ [(txid, answers.rawTransaction (0 + before.length))] := by
        unfold Monitor.refreshTx
        rw [if_neg hseen]
      rw [← hstep]
      generalize (monitor.refreshTxs answers 0 before).1 = middle
      rw [Monitor.refreshTxs]
      rcases hnext : middle.refreshTx (answers.rawTransaction (0 + before.length)) txid with
        ⟨next, error | u⟩
      · exact List.prefix_refl _
      · exact refreshTxs_record answers after _ next
  obtain ⟨answer, ⟨hin, hout⟩ | hprefix⟩ := hfetched
  · rw [← hnew'] at hin
    exact ⟨answer, hnew'.symm, (List.mem_append.mp hin).resolve_left hout⟩
  · obtain ⟨last, hlast⟩ := hprefix
    refine ⟨answer, hnew'.symm, ?_⟩
    rw [← hfirst, ← hnew', List.append_assoc, List.append_assoc,
      List.append_cancel_left_eq] at hlast
    rw [← hlast]
    simp

theorem Inv.run_prefix : ∀ (rounds : List Round) {monitor : Monitor}, monitor.Inv →
    (∀ round ∈ rounds, ∀ info, round.answers.blockchainInfo = .ok info →
      info.bestblockhash = monitor.state.tipHash) →
    monitor.state.Grown (monitor.run rounds).state := by
  intro rounds
  induction rounds with
  | nil => exact fun _ _ => MonitorState.Grown.refl _
  | cons round rest ih =>
      intro monitor h htips
      have hstep := h.refresh_prefix round (htips round List.mem_cons_self)
      refine hstep.trans (ih (h.refresh round) fun later hlater info hinfo => ?_)
      rw [hstep.tip]
      exact htips later (List.mem_cons_of_mem _ hlater) info hinfo

theorem refresh_ok {monitor : Monitor} {round : Round} {snapshot : MempoolSnapshot}
    (h : (monitor.refresh round).2 = .ok snapshot) :
    snapshot.entries = (monitor.refresh round).1.state.entries := by
  revert h
  unfold refresh
  rcases round.answers.blockchainInfo with error | info
  · exact nofun
  rcases round.answers.rawMempool with error | txids
  · exact nofun
  simp only
  rcases (monitor.atTip info.bestblockhash).refreshTxs round.answers 0 txids with ⟨after, error | u⟩
  · exact nofun
  · intro h
    obtain rfl := Except.ok.inj h
    rfl

end Monitor

/--
**What the monitor has accumulated**, after any sequence of refreshes, wherever they
failed.  Its transactions are distinct and seen, and each is what its own bytes and its
place make of it.  Refreshes that adopt no other tip only add to the list.  A transaction
is seen exactly if some fetch of it succeeded, so one that was not is fetched again by a
refresh that gets to it.  And a refresh that succeeds publishes each transaction with a
txid in hex whose fetches under the tip were all good, if there was one.
-/
theorem monitor_accumulates (rounds : List Round) :
    (((Monitor.empty.run rounds).state.entries.map (·.txidDisplay)).Nodup ∧
      ∀ entry ∈ (Monitor.empty.run rounds).state.entries,
        entry.txidDisplay ∈ (Monitor.empty.run rounds).state.seen) ∧
    (∀ place (entry : MempoolEntry),
      (Monitor.empty.run rounds).state.entries[place]? = some entry →
      (∃ bytes, hexDecode entry.txidDisplay = .ok bytes ∧ entry.wireTxid = bytes.reverse) ∧
      compactTxFromRaw place entry.raw = .ok entry.compact ∧ entry.compact.index = place) ∧
    (∀ later : List Round, (∀ round ∈ later, ∀ info, round.answers.blockchainInfo = .ok info →
        info.bestblockhash = (Monitor.empty.run rounds).state.tipHash) →
      (Monitor.empty.run rounds).state.entries
        <+: (Monitor.empty.run (rounds ++ later)).state.entries) ∧
    (∀ txid, txid ∈ (Monitor.empty.run rounds).state.seen ↔
      ∃ raw, (txid, .ok raw) ∈ (Monitor.empty.run rounds).fetched) ∧
    ∀ round : Round,
      (∀ info before txid after, round.answers.blockchainInfo = .ok info →
        round.answers.rawMempool = .ok (before ++ txid :: after) →
        (∀ raw, (txid, .ok raw) ∉
          ((Monitor.empty.run rounds).atTip info.bestblockhash).fetched) →
        (((Monitor.empty.run rounds).atTip info.bestblockhash).refreshTxs round.answers 0
          before).2 = .ok () →
        ∃ new answer, ((Monitor.empty.run rounds).refresh round).1.fetched
          = ((Monitor.empty.run rounds).atTip info.bestblockhash).fetched ++ new ∧
          (txid, answer) ∈ new) ∧
      ∀ snapshot, ((Monitor.empty.run rounds).refresh round).2 = .ok snapshot →
        ∀ txid answer, (txid, answer) ∈ ((Monitor.empty.run rounds).refresh round).1.fetched →
          (∀ answer, (txid, answer) ∈ ((Monitor.empty.run rounds).refresh round).1.fetched →
            GoodFetch answer) →
          (∃ bytes, hexDecode txid = .ok bytes) →
          ∃ entry ∈ snapshot.entries, entry.txidDisplay = txid := by
  have h := Monitor.run_inv rounds
  refine ⟨⟨h.distinct.nodup, h.distinct.seen⟩, fun place entry hentry => ?_, fun later htips => ?_,
    h.seen, fun round => ⟨fun info before txid after hinfo hlist hunseen hreached => ?_,
      fun snapshot hok txid answer hfetched hgood hdecoded => ?_⟩⟩
  · have hat := h.entries place entry hentry
    exact ⟨hat.wire, hat.compact, hat.index⟩
  · have hrun : Monitor.empty.run (rounds ++ later) = (Monitor.empty.run rounds).run later :=
      List.foldl_append
    rw [hrun]
    exact (h.run_prefix later htips).entries
  · have htip := h.atTip info.bestblockhash
    have hnew : txid ∉ ((Monitor.empty.run rounds).atTip info.bestblockhash).state.seen := by
      rw [htip.seen]
      rintro ⟨raw, hraw⟩
      exact hunseen raw hraw
    obtain ⟨new, answer, hrecord, hin⟩ := htip.refreshTxs_fetches round.answers after hnew
      hreached
    refine ⟨new, answer, ?_, hin⟩
    rw [← hrecord]
    unfold Monitor.refresh
    rw [hinfo]
    simp only [hlist]
    rcases ((Monitor.empty.run rounds).atTip info.bestblockhash).refreshTxs round.answers 0
      (before ++ txid :: after) with ⟨monitor, error | u⟩ <;> rfl
  · rw [Monitor.refresh_ok hok]
    exact List.mem_map.mp ((h.refresh round).listed txid answer hfetched hgood hdecoded)

end

/-! ### A txid that is no hex -/

/-- A node that lists one transaction under a text that is no hex. -/
def nameless : Round where
  answers := {
    blockchainInfo := .ok ⟨"main", 1, "aa"⟩
    rawMempool := .ok ["zz"]
    rawTransaction _ := .ok ⟨hexEncode (coinbaseTx 1), 0⟩ }
  now := 0

theorem nameless_unpublished : ∃ snapshot,
    ((Monitor.empty.run [nameless]).refresh nameless).2 = .ok snapshot ∧
    nameless.answers.rawMempool = .ok ["zz"] ∧
    (∃ answer, ("zz", answer) ∈ ((Monitor.empty.run [nameless]).refresh nameless).1.fetched) ∧
    (∀ answer, ("zz", answer) ∈ ((Monitor.empty.run [nameless]).refresh nameless).1.fetched →
      GoodFetch answer) ∧
    ¬∃ entry ∈ snapshot.entries, entry.txidDisplay = "zz" := by
  have hrun : (Monitor.empty.run [nameless]).refresh nameless
      = (⟨⟨"aa", ["zz"], []⟩, [("zz", .ok ⟨hexEncode (coinbaseTx 1), 0⟩)]⟩,
          .ok ⟨"aa", [], some 0⟩) := by
    decide +kernel
  rw [hrun]
  refine ⟨⟨"aa", [], some 0⟩, rfl, rfl, ⟨_, List.mem_singleton_self _⟩, fun answer h => ?_, by simp⟩
  obtain rfl := (Prod.mk.inj (List.mem_singleton.mp h)).2
  have hparse : (compactTxFromRaw 0 (coinbaseTx 1)).toOption.isSome = true := by decide +kernel
  obtain ⟨compact, hcompact⟩ := Option.isSome_iff_exists.mp hparse
  exact ⟨_, _, compact, rfl, rfl, hexDecode_hexEncode _, Except.toOption_eq_some.mp hcompact⟩

end Lightwalletd
