/-
What a reported discontinuity takes away.

A report is for a height of the cache or for none of its.  In the first case, and if
the budget has something left, the cache is cut at that height, or emptied if what
would be left ends below the floor.  The cut takes the blocks from there on, the
base of the snapshot if it is one of them, and the digests of the epochs it reaches
into.  Otherwise nothing changes, except that a report the budget refuses goes back
into its slot.
-/
import Lightwalletd.Ingestor
import Lightwalletd.Proofs.Store

namespace Lightwalletd

/-! ### A cut -/

/-- `cache'` is what a cut leaves of a cache whose snapshot starts at `base`: of the
rows, the base and the digests, what lies below it. -/
structure Cache.CutAt (cache : Cache) (base : Option Nat) (cut : Nat) (cache' : Cache) : Prop where
  rows : cache'.blocks.rows = cache.blocks.rows.filter fun row => row.1 < cut
  base : cache'.snapshotBaseHeight = .ok (base.filter fun b => b < cut)
  digests : ∀ index ≤ u64Max, cache'.epochDigest index
    = if cut ≤ epochLastHeight index then none else cache.epochDigest index

theorem Cache.truncated_base {cache : Cache} {base : Option Nat}
    (hbase : cache.snapshotBaseHeight = .ok base) (cut : Nat) :
    (cache.truncated cut base).snapshotBaseHeight = .ok (base.filter fun b => b < cut) := by
  unfold snapshotBaseHeight at hbase
  show decodeBaseHeight ((cache.metaRows.retain fun key _ =>
    keepsMeta cut (base.any fun b => cut ≤ b) key).get snapshotBaseHeightKey) = _
  rw [Table.get_retain]
  rcases hget : cache.metaRows.get snapshotBaseHeightKey with _ | value
  · rw [hget] at hbase
    obtain rfl : none = base := Except.ok.inj hbase
    rfl
  · rw [hget] at hbase
    -- A row that can be read has a height in it.
    obtain ⟨b, rfl⟩ : ∃ b, base = some b := by
      simp only [decodeBaseHeight] at hbase
      split at hbase
      · exact ⟨_, (Except.ok.inj hbase).symm⟩
      · cases hbase
    by_cases hcut : cut ≤ b
    · have hbelow : ¬b < cut := by omega
      simp [keepsMeta, Option.filter, hcut, hbelow, decodeBaseHeight]
    · have hbelow : b < cut := by omega
      simpa [keepsMeta, Option.filter, hcut, hbelow] using hbase

theorem Cache.removeFrom_cutAt {cache : Cache} {base : Option Nat}
    (hbase : cache.snapshotBaseHeight = .ok base) (cut : Nat) (hcut : cut ≤ u64Max) :
    ∃ cache', cache.removeFrom cut = (cache', .ok ()) ∧ cache.CutAt base cut cache' := by
  refine ⟨_, removeFrom_eq hbase cut, rfl, truncated_base hbase cut, fun index hindex => ?_⟩
  rw [truncated_epochDigest cache base hcut hindex]
  by_cases hbelow : epochLastHeight index < cut
  · rw [if_pos hbelow, if_neg (by omega)]
  · rw [if_neg hbelow, if_pos (by omega)]

/-! ### A report -/

theorem RepairSignal.report_take (repair : RepairSignal) {height : Nat} (h : height < nothing) :
    ∃ lowest, (repair.report height).take.1 = some lowest ∧ lowest ≤ height := by
  have hle : min repair.lowest height ≤ height := Nat.min_le_right _ _
  refine ⟨min repair.lowest height, ?_, hle⟩
  unfold report take
  rw [if_neg]
  show min repair.lowest height ≠ nothing
  omega

/--
**A report truncates exactly what it must.**  For a height the cache does not hold,
nothing changes, nor is the budget charged.  For one it holds and with the budget's
consent, the cache is cut at that height, or at zero if the block below is under the
floor; it stays whole only if the base of its snapshot cannot be read.  And a report
that is refused changes nothing and is in the slot again, unless a lower one is.
-/
theorem repairReported_truncates (cache : Cache) (height startHeight : Nat) (repair : RepairSignal)
    (budget : RepairBudget) (now : Nat) (hpos : 1 ≤ height) (hword : height < nothing)
    {cache' : Cache} {repair' : RepairSignal} {budget' : RepairBudget}
    (hrun : repairReported cache height startHeight repair budget now
      = (cache', repair', budget')) :
    ((∀ low high, cache.range = some (low, high) → ¬(low ≤ height ∧ height ≤ high)) →
      cache' = cache ∧ repair' = repair ∧ budget' = budget) ∧
    ∀ low high, cache.range = some (low, high) → low ≤ height → height ≤ high →
      ((budget.trySpend now).1 = true →
        (∀ base, cache.snapshotBaseHeight = .ok base →
          cache.CutAt base (if startHeight ≤ height - 1 then height else 0) cache') ∧
        ∀ error, cache.snapshotBaseHeight = .error error → cache' = cache) ∧
      ((budget.trySpend now).1 = false →
        cache' = cache ∧ ∃ lowest, repair'.take.1 = some lowest ∧ lowest ≤ height) := by
  have hmax : height ≤ u64Max := Nat.le_of_lt hword
  unfold repairReported at hrun
  refine ⟨fun hout => ?_, fun low high hrange hlow hhigh => ?_⟩
  · rcases hrange : cache.range with _ | ⟨low, high⟩
    · simp only [hrange, Prod.mk.injEq] at hrun
      exact ⟨hrun.1.symm, hrun.2.1.symm, hrun.2.2.symm⟩
    · simp only [hrange, if_neg (hout low high hrange), Prod.mk.injEq] at hrun
      exact ⟨hrun.1.symm, hrun.2.1.symm, hrun.2.2.symm⟩
  simp only [hrange, if_pos (And.intro hlow hhigh)] at hrun
  rcases hspend : budget.trySpend now with ⟨_ | _, next⟩
  · simp only [hspend, Prod.mk.injEq] at hrun
    obtain ⟨rfl, rfl, -⟩ := hrun
    exact ⟨nofun, fun _ => ⟨rfl, repair.report_take hword⟩⟩
  · simp only [hspend, Prod.mk.injEq] at hrun
    obtain ⟨rfl, -, -⟩ := hrun
    refine ⟨fun _ => ?_, nofun⟩
    have hlatest : cache.latestHeight = some high := Cache.latestHeight_of_range hrange
    have hfloor : (if height ≤ startHeight then 0 else height)
        = if startHeight ≤ height - 1 then height else 0 := by
      split_ifs <;> omega
    rw [reorgToFloor_below hlatest (by omega) hhigh hmax, hfloor]
    refine ⟨fun base hbase => ?_, fun error hbase => ?_⟩
    · obtain ⟨cut, hcut, hleft⟩ := Cache.removeFrom_cutAt hbase
        (if startHeight ≤ height - 1 then height else 0) (by split <;> omega)
      rw [hcut]
      exact hleft
    · rcases cache.removeFrom_cases (if startHeight ≤ height - 1 then height else 0) with
        ⟨e, heq⟩ | ⟨base, hread, -⟩
      · rw [heq]
      · exact absurd (hbase.symm.trans hread) nofun

def twoRows : Cache := { blocks := ⟨[(5, []), (6, [])], by decide⟩, metaRows := Table.empty }

/-- A report for the tip takes the tip alone. -/
theorem twoRows_truncates :
    (repairReported twoRows 6 5 .new (.new 0) 1).1.blocks.rows = [(5, [])] := by
  have hrun := repairReported_truncates twoRows 6 5 .new (.new 0) 1 (by decide) (by decide) rfl
  obtain ⟨hgranted, -⟩ := hrun.2 5 6 rfl (by decide) (by decide)
  exact ((hgranted (by decide)).1 none rfl).rows.trans (by decide)

end Lightwalletd
