/-
The shared monitor and the poll loop of a single request.

With a monitor, a wallet's stream reads what one task has fetched for everybody; without
one it runs the loop itself.  Here the two run side by side on the same answers of the
node, in any interleaving with the wakeups of the monitored stream.  What ties them is
that both note a transaction when they first fetch it and keep it if it is not mined, so
that the monitor's list is, byte for byte, what the loop has yielded.

Two things differ and stay outside: the loop gives up when a fetch fails, where the
monitor tries again, and the monitor gives up on a transaction that it cannot parse,
which the loop does not look at.
-/
import Lightwalletd.Proofs.Mempool
import Lightwalletd.Service.Poll

namespace Lightwalletd

/-- What a stream hands over of an entry. -/
def MempoolEntry.rawTransaction (entry : MempoolEntry) : RawTransaction := ⟨entry.raw, 0⟩

section

variable [Librustzcash]

/-! ### One round

The loop of the stream and the monitor's refresh ask the node for the same transactions
and decode the answers in the same way.
-/

/-- On the same answers, the loop yields what the monitor adds. -/
theorem pollTxs_refreshTxs (answers : RefreshAnswers) (tipHash : String) :
    ∀ (txids : List String) (place : Nat) {seen seen' : List String}
      {entries : List MempoolEntry} {items : List RawTransaction} {state : MonitorState},
      pollTxs answers place seen txids = (items, .ok seen') →
      refreshTxs answers place ⟨tipHash, seen, entries⟩ txids = (state, .ok ()) →
      ∃ added, state = ⟨tipHash, seen', entries ++ added⟩ ∧
        added.map (·.rawTransaction) = items := by
  intro txids
  induction txids with
  | nil =>
      intro place seen seen' entries items state hpoll hrefresh
      cases hpoll
      cases hrefresh
      exact ⟨[], by rw [List.append_nil], rfl⟩
  | cons txid txids ih =>
      intro place seen seen' entries items state hpoll hrefresh
      rw [pollTxs] at hpoll
      rw [refreshTxs, refreshTx.eq_def] at hrefresh
      dsimp only at hrefresh
      by_cases hseen : txid ∈ seen
      · rw [if_pos hseen] at hpoll hrefresh
        exact ih (place + 1) hpoll hrefresh
      rw [if_neg hseen] at hpoll hrefresh
      rcases hanswer : answers.rawTransaction place with error | raw
      · rw [hanswer] at hpoll
        cases hpoll
      rw [hanswer] at hpoll hrefresh
      dsimp only at hpoll hrefresh
      by_cases hmined : raw.height ≠ 0
      · rw [if_pos hmined] at hpoll hrefresh
        exact ih (place + 1) hpoll hrefresh
      rw [if_neg hmined] at hpoll hrefresh
      unfold decodeHex at hpoll
      rcases hhex : hexDecode raw.hex with error | bytes
      · rw [hhex] at hpoll
        cases hpoll
      rw [hhex] at hpoll hrefresh
      dsimp only [Except.mapError] at hpoll hrefresh
      -- From here on only the monitor can fail.
      rcases hwire : displayHexToWire txid with error | wireTxid
      · rw [hwire] at hrefresh
        cases hrefresh
      rw [hwire] at hrefresh
      rcases hparse : compactTxFromRaw entries.length bytes with error | compact
      · rw [hparse] at hrefresh
        cases hrefresh
      rw [hparse] at hrefresh
      obtain ⟨hitems, hrest⟩ := Prod.mk.inj hpoll
      obtain ⟨added, hstate, hadded⟩ := ih (place + 1) (Prod.ext rfl hrest) hrefresh
      refine ⟨⟨txid, wireTxid, bytes, compact⟩ :: added, ?_, ?_⟩
      · rw [hstate, List.append_assoc, List.singleton_append]
      · rw [List.map_cons, hadded]
        exact hitems

/-- A whole round, on a monitor that is at the stream's tip or about to adopt it. -/
theorem poll_refresh {answers : RefreshAnswers} {now : Nat} {stream stream' : PollStream}
    {monitor : MonitorState} {entries : List MempoolEntry} {items : List RawTransaction}
    {snapshot : MempoolSnapshot}
    (hat : monitor.atTip stream.startTip = ⟨stream.startTip, stream.seen, entries⟩)
    (hdistinct : MonitorState.Distinct ⟨stream.startTip, stream.seen, entries⟩)
    (hpolled : stream.poll answers = (items, .sleeping stream'))
    (hrefreshed : (refresh answers now monitor).2 = .ok snapshot) :
    ∃ added, refresh answers now monitor
        = (⟨stream.startTip, stream'.seen, entries ++ added⟩, .ok snapshot) ∧
      snapshot = .fresh stream.startTip (entries ++ added) now ∧
      stream'.startTip = stream.startTip ∧ added.map (·.rawTransaction) = items ∧
      MonitorState.Distinct ⟨stream.startTip, stream'.seen, entries ++ added⟩ := by
  unfold PollStream.poll at hpolled
  unfold refresh at hrefreshed ⊢
  rcases hinfo : answers.blockchainInfo with error | info
  · rw [hinfo] at hpolled
    cases hpolled
  rw [hinfo] at hpolled hrefreshed
  dsimp only at hpolled hrefreshed ⊢
  by_cases htip : info.bestblockhash = stream.startTip
  swap
  · rw [if_pos htip] at hpolled
    cases hpolled
  rw [if_neg (not_not_intro htip)] at hpolled
  rw [htip, hat] at hrefreshed ⊢
  rcases hlist : answers.rawMempool with error | txids
  · rw [hlist] at hpolled
    cases hpolled
  rw [hlist] at hpolled hrefreshed
  dsimp only at hpolled hrefreshed ⊢
  rcases hpoll : pollTxs answers 0 stream.seen txids with ⟨polled, status | seen⟩
  · rw [hpoll] at hpolled
    cases hpolled
  rw [hpoll] at hpolled
  obtain ⟨rfl, hstream⟩ := Prod.mk.inj hpolled
  cases hstream
  rcases hloop : refreshTxs answers 0 ⟨stream.startTip, stream.seen, entries⟩ txids with
    ⟨state, error | u⟩
  · rw [hloop] at hrefreshed
    cases hrefreshed
  rw [hloop] at hrefreshed
  have hkept := (refreshTxs_grown answers txids 0 _ hdistinct).2
  rw [hloop] at hkept
  obtain ⟨added, rfl, hadded⟩ := pollTxs_refreshTxs answers stream.startTip txids 0 hpoll hloop
  obtain rfl := Except.ok.inj hrefreshed
  exact ⟨added, rfl, rfl, rfl, hadded, hkept⟩

omit [Librustzcash] in
/-- If everything listed is answered, the loop goes through the list, and yields some of
what it had not seen. -/
theorem pollTxs_answered (answers : RefreshAnswers) : ∀ (txids : List String) (place : Nat)
    (seen : List String),
    (∀ listed ∈ txids.zipIdx place, ∃ raw bytes, answers.rawTransaction listed.2 = .ok raw ∧
      hexDecode raw.hex = .ok bytes) →
    ∃ items seen', pollTxs answers place seen txids = (items, .ok seen') ∧ seen ⊆ seen' ∧
      txids ⊆ seen' ∧ ∀ item ∈ items, item.height = 0 ∧ ∃ listed ∈ txids.zipIdx place,
        listed.1 ∉ seen ∧ ∃ raw, answers.rawTransaction listed.2 = .ok raw ∧ raw.height = 0 ∧
          hexDecode raw.hex = .ok item.data := by
  intro txids
  induction txids with
  | nil => exact fun _ seen _ =>
      ⟨[], seen, rfl, List.Subset.refl _, List.nil_subset _,
        fun _ hin => absurd hin List.not_mem_nil⟩
  | cons txid txids ih =>
      intro place seen hanswered
      rw [List.zipIdx_cons] at hanswered ⊢
      obtain ⟨⟨raw, bytes, hraw, hbytes⟩, hrest⟩ := List.forall_mem_cons.mp hanswered
      rw [pollTxs]
      by_cases hseen : txid ∈ seen
      · rw [if_pos hseen]
        obtain ⟨items, seen', hrun, hkept, hall, hitems⟩ := ih (place + 1) seen hrest
        refine ⟨items, seen', hrun, hkept, List.cons_subset.mpr ⟨hkept hseen, hall⟩, ?_⟩
        intro item hitem
        obtain ⟨hzero, listed, hlisted, hfresh⟩ := hitems item hitem
        exact ⟨hzero, listed, List.mem_cons_of_mem _ hlisted, hfresh⟩
      rw [if_neg hseen, hraw]
      obtain ⟨items, seen', hrun, hkept, hall, hitems⟩ := ih (place + 1) (txid :: seen) hrest
      have hfront := List.cons_subset.mp hkept
      have hlater : ∀ item ∈ items, item.height = 0 ∧
          ∃ listed ∈ (txid, place) :: txids.zipIdx (place + 1),
          listed.1 ∉ seen ∧ ∃ raw, answers.rawTransaction listed.2 = .ok raw ∧ raw.height = 0 ∧
            hexDecode raw.hex = .ok item.data := by
        intro item hitem
        obtain ⟨hzero, listed, hlisted, hfresh, hbacked⟩ := hitems item hitem
        exact ⟨hzero, listed, List.mem_cons_of_mem _ hlisted,
          fun hold => hfresh (List.mem_cons_of_mem _ hold), hbacked⟩
      by_cases hmined : raw.height ≠ 0
      · refine ⟨items, seen', ?_, hfront.2, List.cons_subset.mpr ⟨hfront.1, hall⟩, hlater⟩
        simp only [if_pos hmined, hrun]
      · refine ⟨⟨bytes, 0⟩ :: items, seen', ?_, hfront.2, List.cons_subset.mpr ⟨hfront.1, hall⟩, ?_⟩
        · simp only [if_neg hmined, decodeHex, hbytes, Except.mapError, hrun]
        · refine List.forall_mem_cons.mpr ⟨⟨rfl, (txid, place), List.mem_cons_self,
            hseen, raw, hraw,
            not_not.mp hmined, hbytes⟩, hlater⟩

/-! ### Side by side

The monitored stream may sleep while rounds go by, and catches up when it wakes.
-/

/-- The monitor with its stream, and the loop with what it has yielded. -/
structure SideBySide where
  system : MempoolSystem
  stream : PollStream
  items : List RawTransaction

/-- Both are opened in the round in which the monitor adopts the tip.  From then on the
node answers both, round after round, and neither fails; the monitored stream wakes up
whenever it likes. -/
inductive SideBySide.Reachable (tip : String) : SideBySide → Prop
  | start (system : MempoolSystem) (answers : RefreshAnswers) (snapshot : MempoolSnapshot)
      (stream : PollStream) (items : List RawTransaction)
      (hclosed : system.phase = .unopened) (hnothing : system.emitted = [])
      (hnew : system.monitor.atTip tip = ⟨tip, [], []⟩)
      (hpolled : (PollStream.start tip).poll answers = (items, .sleeping stream))
      (hrefreshed : (refresh answers system.clock system.monitor).2 = .ok snapshot) :
      Reachable tip ⟨system.refresh answers, stream, items⟩
  | round {both : SideBySide} (h : Reachable tip both) (answers : RefreshAnswers)
      (snapshot : MempoolSnapshot) (stream : PollStream) (items : List RawTransaction)
      (hpolled : both.stream.poll answers = (items, .sleeping stream))
      (hrefreshed : (refresh answers both.system.clock both.system.monitor).2 = .ok snapshot) :
      Reachable tip ⟨both.system.refresh answers, stream, both.items ++ items⟩
  | wake {both : SideBySide} (h : Reachable tip both) :
      Reachable tip { both with system := both.system.wake }
  | pass {both : SideBySide} (h : Reachable tip both) (time : Nat) :
      Reachable tip { both with system := { both.system with clock := both.system.clock + time } }

namespace SideBySide

/-- The monitor's list is published and is what the loop has yielded; the monitored
stream has a beginning of it. -/
structure Inv (tip : String) (both : SideBySide) : Prop where
  startTip : both.stream.startTip = tip
  monitor : both.system.monitor = ⟨tip, both.stream.seen, both.system.monitor.entries⟩
  distinct : both.system.monitor.Distinct
  published : both.system.published.tipHash = tip ∧
    both.system.published.entries = both.system.monitor.entries
  items : both.system.monitor.entries.map (·.rawTransaction) = both.items
  unopened : both.system.phase = .unopened → both.system.emitted = []
  serving : ∀ stream, both.system.phase = .serving stream → stream.startTip = tip ∧
    stream.sent = both.system.emitted.length ∧ both.system.emitted <+: both.system.monitor.entries

variable {tip : String} {both : SideBySide}

theorem refresh_eq {system : MempoolSystem} {answers : RefreshAnswers} {monitor : MonitorState}
    {snapshot : MempoolSnapshot}
    (h : refresh answers system.clock system.monitor = (monitor, .ok snapshot)) :
    system.refresh answers = { system with monitor := monitor, published := snapshot } := by
  unfold MempoolSystem.refresh
  rw [h]

theorem Inv.start {system : MempoolSystem} {answers : RefreshAnswers} {snapshot : MempoolSnapshot}
    {stream : PollStream} {items : List RawTransaction} (hclosed : system.phase = .unopened)
    (hnothing : system.emitted = []) (hnew : system.monitor.atTip tip = ⟨tip, [], []⟩)
    (hpolled : (PollStream.start tip).poll answers = (items, .sleeping stream))
    (hrefreshed : (refresh answers system.clock system.monitor).2 = .ok snapshot) :
    Inv tip ⟨system.refresh answers, stream, items⟩ := by
  obtain ⟨added, hrun, rfl, hstart, hadded, hdistinct⟩ :=
    poll_refresh hnew (MonitorState.distinct_nil _ _) hpolled hrefreshed
  rw [refresh_eq hrun]
  refine ⟨hstart, rfl, hdistinct, ⟨rfl, rfl⟩, hadded, fun _ => hnothing, fun stream hserving => ?_⟩
  exact absurd (hclosed.symm.trans hserving) nofun

theorem Inv.round (h : Inv tip both) {answers : RefreshAnswers} {snapshot : MempoolSnapshot}
    {stream : PollStream} {items : List RawTransaction}
    (hpolled : both.stream.poll answers = (items, .sleeping stream))
    (hrefreshed : (refresh answers both.system.clock both.system.monitor).2 = .ok snapshot) :
    Inv tip ⟨both.system.refresh answers, stream, both.items ++ items⟩ := by
  have hat : both.system.monitor.atTip both.stream.startTip
      = ⟨both.stream.startTip, both.stream.seen, both.system.monitor.entries⟩ := by
    rw [h.startTip, h.monitor]
    exact if_neg (not_not_intro rfl)
  have hbefore : MonitorState.Distinct
      ⟨both.stream.startTip, both.stream.seen, both.system.monitor.entries⟩ := by
    rw [h.startTip, ← h.monitor]
    exact h.distinct
  obtain ⟨added, hrun, rfl, hstart, hadded, hdistinct⟩ :=
    poll_refresh hat hbefore hpolled hrefreshed
  rw [refresh_eq hrun]
  rw [h.startTip] at hstart hdistinct ⊢
  refine ⟨hstart, rfl, hdistinct, ⟨rfl, rfl⟩, ?_, h.unopened, fun stream hserving => ?_⟩
  · rw [List.map_append, hadded, h.items]
  · obtain ⟨htip, hsent, hsofar⟩ := h.serving stream hserving
    exact ⟨htip, hsent, hsofar.trans (List.prefix_append _ _)⟩

omit [Librustzcash] in
/-- Reading the published list ends the monitored stream or brings it up to date. -/
theorem Inv.serve (h : Inv tip both) {stream : MempoolStream}
    (htip : stream.startTip = "" ∨ stream.startTip = tip)
    (hsent : stream.sent = both.system.emitted.length)
    (hsofar : both.system.emitted <+: both.system.monitor.entries) :
    both.system.serve stream = { both.system with phase := .ended } ∨
    both.system.serve stream = { both.system with
      phase := .serving ⟨tip, both.system.monitor.entries.length⟩
      emitted := both.system.monitor.entries
      processed := both.system.published :: both.system.processed } := by
  have hall : both.system.emitted ++ both.system.monitor.entries.drop stream.sent
      = both.system.monitor.entries := by
    rw [hsent]
    exact List.prefix_iff_eq_append.mp hsofar
  unfold MempoolSystem.serve MempoolStream.wake
  rw [h.published.1, h.published.2]
  rcases both.system.published.isStale both.system.clock
  · refine Or.inr ?_
    by_cases hnone : stream.startTip = ""
    · simp only [hnone, if_true, Bool.false_eq_true, if_false, hall]
    · have hsame : stream.startTip = tip := htip.resolve_left hnone
      simp only [hsame, Bool.false_eq_true, if_false, ne_eq, not_true_eq_false, hall, ite_self]
  · exact Or.inl rfl

omit [Librustzcash] in
theorem Inv.wake (h : Inv tip both) : Inv tip { both with system := both.system.wake } ∧
    (both.system.wake.phase = .ended ∨
      both.system.wake.emitted = both.system.monitor.entries) := by
  have hleft : ∀ system, system = { both.system with phase := .ended } ∨
      system = { both.system with
        phase := .serving ⟨tip, both.system.monitor.entries.length⟩
        emitted := both.system.monitor.entries
        processed := both.system.published :: both.system.processed } →
      Inv tip { both with system := system } ∧
        (system.phase = .ended ∨ system.emitted = both.system.monitor.entries) := by
    rintro system (rfl | rfl)
    · exact ⟨{ h with unopened := nofun, serving := nofun }, Or.inl rfl⟩
    · refine ⟨{ h with unopened := nofun, serving := ?_ }, Or.inr rfl⟩
      rintro stream ⟨⟩
      exact ⟨rfl, rfl, List.prefix_refl _⟩
  unfold MempoolSystem.wake
  rcases hphase : both.system.phase with _ | stream | _
  · have hnone := h.unopened hphase
    exact hleft _ (h.serve (Or.inl rfl) (by rw [hnone]; rfl) (by rw [hnone]; exact List.nil_prefix))
  · obtain ⟨htip, hsent, hsofar⟩ := h.serving stream hphase
    exact hleft _ (h.serve (Or.inr htip) hsent hsofar)
  · exact ⟨h, Or.inl hphase⟩

theorem Reachable.inv (h : Reachable tip both) : Inv tip both := by
  induction h with
  | start system answers snapshot stream items hclosed hnothing hnew hpolled hrefreshed =>
      exact Inv.start hclosed hnothing hnew hpolled hrefreshed
  | round _ answers snapshot stream items hpolled hrefreshed ih => exact ih.round hpolled hrefreshed
  | wake _ ih => exact ih.wake.1
  | pass _ time ih => exact { ih with }

end SideBySide

/--
**The monitor serves what the loop would.**  In every interleaving of rounds, wakeups and
time: when the monitored stream has woken up and not ended, it has handed over exactly
the transactions, in order, that the request's own loop has yielded from the same
answers, and none of them twice.
-/
theorem monitored_eq_polled {tip : String} {both : SideBySide} (h : SideBySide.Reachable tip both)
    (hopen : both.system.wake.phase ≠ .ended) :
    both.system.wake.emitted.map (·.rawTransaction) = both.items ∧
      (both.system.wake.emitted.map (·.txidDisplay)).Nodup := by
  have hemitted := h.inv.wake.2.resolve_left hopen
  rw [hemitted]
  exact ⟨h.inv.items, h.inv.distinct.nodup⟩

end

deriving instance DecidableEq for StreamPhase

/-- A mempool of one transaction. -/
def openedSystem : MempoolSystem := MempoolSystem.init.refresh (mempoolOf "aa" [coinbaseTx 1])

/-- A wakeup later it has a second one. -/
def grownSystem : MempoolSystem :=
  openedSystem.wake.refresh (mempoolOf "aa" [coinbaseTx 1, coinbaseTx 2])

theorem grownSystem_agrees :
    grownSystem.wake.emitted.map (·.rawTransaction)
      = [⟨coinbaseTx 1, 0⟩] ++ [⟨coinbaseTx 2, 0⟩] ∧
    (grownSystem.wake.emitted.map (·.txidDisplay)).Nodup := by
  have hopened : SideBySide.Reachable "aa"
      ⟨openedSystem, ⟨"aa", [listedTxid (coinbaseTx 1)]⟩, [⟨coinbaseTx 1, 0⟩]⟩ := by
    refine .start _ _ openedSystem.published _ _ rfl rfl rfl ?_ ?_
    · decide +kernel
    · decide +kernel
  have hpolled : (PollStream.mk "aa" [listedTxid (coinbaseTx 1)]).poll
      (mempoolOf "aa" [coinbaseTx 1, coinbaseTx 2]) = ([⟨coinbaseTx 2, 0⟩],
        .sleeping ⟨"aa", [listedTxid (coinbaseTx 2), listedTxid (coinbaseTx 1)]⟩) := by
    decide +kernel
  have hwoken := hopened.wake
  have hrefreshed : (refresh (mempoolOf "aa" [coinbaseTx 1, coinbaseTx 2]) openedSystem.wake.clock
      openedSystem.wake.monitor).2 = .ok grownSystem.published := by decide +kernel
  dsimp only at hwoken
  have hgrown : SideBySide.Reachable "aa" ⟨grownSystem,
      ⟨"aa", [listedTxid (coinbaseTx 2), listedTxid (coinbaseTx 1)]⟩,
      [⟨coinbaseTx 1, 0⟩] ++ [⟨coinbaseTx 2, 0⟩]⟩ := by
    unfold grownSystem at hrefreshed ⊢
    revert hwoken hrefreshed
    generalize openedSystem.wake = woken
    intro hwoken hrefreshed
    exact hwoken.round _ _ _ _ hpolled hrefreshed
  have hopen : grownSystem.wake.phase ≠ .ended := by decide +kernel
  have hagrees := monitored_eq_polled hgrown
  dsimp only at hagrees
  exact hagrees hopen

end Lightwalletd
