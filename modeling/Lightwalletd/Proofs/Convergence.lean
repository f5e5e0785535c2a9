/-
Ingestion converges on a fixed chain.

Against a node that answers from one linked chain, a step is idle, rolls back the
tip, or appends a window of the chain.  It never rolls back a tip that is on the
chain, and an append always leaves one, so the run has two phases: rollbacks, each
of which takes a row away, and then appends, each of which raises the tip.
`distance` counts down through both of them.
-/
import Lightwalletd.Proofs.Window

namespace Lightwalletd

/-! ### A node on one chain

The node answers whatever it is asked for, from a chain that stays as it is while the
steps are taken.
-/

/-- A hash-linked chain up to its tip.  No block height reaches the largest word. -/
structure NodeChain where
  blockAt : Nat → CompactBlock
  tip : Nat
  height : ∀ h ≤ tip, (blockAt h).height = h
  linked : ∀ h < tip, Follows (blockAt h) (blockAt (h + 1))
  below : tip < u64Max

/-- Everything the step asks for is answered, from this chain. -/
structure NodeChain.Agrees [BlockParser] (chain : NodeChain) (env : StepEnv) : Prop where
  info : ∃ info, env.blockchainInfo = .ok info ∧ info.blocks = chain.tip ∧
    displayHexToWire info.bestblockhash = .ok (chain.blockAt chain.tip).hash
  fetch : ∀ h ≤ chain.tip, ∃ replies, env.task h = .fetched replies ∧
    compactBlock replies h = .ok (chain.blockAt h)

variable {chain : NodeChain}

theorem NodeChain.Agrees.delivered [BlockParser] {env : StepEnv} (h : chain.Agrees env) {k : Nat}
    (hk : k ≤ chain.tip) :
    env.delivered k = some (.ok (chain.blockAt k)) ∧ (env.task k).panic = none := by
  obtain ⟨replies, htask, hblock⟩ := h.fetch k hk
  simp only [StepEnv.delivered, htask, TaskOutcome.result, TaskOutcome.panic, hblock, and_self]

theorem NodeChain.Agrees.window_eq [BlockParser] {env : StepEnv} (h : chain.Agrees env)
    {next count : Nat} (hwindow : next + count ≤ chain.tip + 1) (concurrency : Nat) :
    (fetchWindow env (List.range' next count) concurrency).results.rows
      = (List.range' next count).map (fun k => (k, .ok (chain.blockAt k))) ∧
    (fetchWindow env (List.range' next count) concurrency).panicked = none := by
  have hdelivered : ∀ k ∈ List.range' next count,
      env.delivered k = some (.ok (chain.blockAt k)) ∧ (env.task k).panic = none := by
    intro k hk
    have := List.mem_range'_1.mp hk
    exact h.delivered (by omega)
  refine ⟨?_, ?_⟩
  · rw [fetchWindow_rows, StepEnv.rows, ← List.filterMap_eq_map']
    refine List.filterMap_congr fun k hk => ?_
    rw [StepEnv.row, (hdelivered k hk).1]
    rfl
  · rw [← Option.not_isSome_iff_eq_none, fetchWindow_panicked]
    rintro ⟨k, hk, hpanic⟩
    rw [(hdelivered k hk).2] at hpanic
    cases hpanic

/-- A window of the chain that starts on the previous hash is kept whole. -/
theorem NodeChain.keepChained_all (chain : NodeChain) :
    ∀ (count next : Nat) (prevHash : Option Bytes) (kept : List CompactBlock),
      next + count ≤ chain.tip + 1 → (∀ prev ∈ prevHash, (chain.blockAt next).prevHash = prev) →
      keepChained next prevHash kept
          ((List.range' next count).map fun k => (k, .ok (chain.blockAt k)))
        = .batch (kept ++ (List.range' next count).map chain.blockAt) none := by
  intro count
  induction count with
  | zero => intro next prevHash kept _ _; simp [keepChained]
  | succ count ih =>
      intro next prevHash kept hwindow hprev
      rw [List.range'_succ, List.map_cons, List.map_cons]
      unfold keepChained
      have hmatch : (prevHash.any (· ≠ (chain.blockAt next).prevHash)) = false := by
        rcases prevHash with _ | prev
        · rfl
        · simp [hprev prev rfl]
      rw [if_neg (by simp)]
      simp only [hmatch, Bool.false_eq_true, if_false]
      rcases count with _ | count
      · simp [keepChained]
      · rw [ih (next + 1) _ _ (by omega), List.append_assoc]
        · rfl
        · intro prev hp
          obtain rfl : (chain.blockAt next).hash = prev := Option.some.inj hp
          exact chain.linked next (by omega)

theorem NodeChain.keepChained_reorg (chain : NodeChain) {count next : Nat} (hcount : 0 < count)
    {prev : Bytes} (hprev : (chain.blockAt next).prevHash ≠ prev) :
    keepChained next (some prev) []
      ((List.range' next count).map fun k => (k, .ok (chain.blockAt k))) = .reorg := by
  obtain ⟨count, rfl⟩ : ∃ k, count = k + 1 := ⟨count - 1, by omega⟩
  rw [List.range'_succ, List.map_cons]
  unfold keepChained
  simp [Ne.symm hprev]

/-! ### One step on the chain

A tip that is not on the chain is rolled back, and one that is on it is extended as far
as the node goes.  Otherwise there is nothing to do.
-/

section

variable [Prost] {cache cache' : Cache} {start : Nat}

/-- The recorded base height, if there is one, can be read. -/
def Readable (cache : Cache) : Prop := ∃ base, cache.snapshotBaseHeight = .ok base

/-- Whatever calls a cache comes from, it can. -/
theorem StoreReachable.readable (h : StoreReachable cache) : Readable cache := h.keeps.2.readable

/-- The tip is a block of the chain, by its hash. -/
def NodeChain.TipOn (chain : NodeChain) (cache : Cache) : Prop :=
  ∃ row block, cache.blocks.last = some row ∧ Prost.decode row.2 = .ok block ∧
    row.1 ≤ chain.tip ∧ block.hash = (chain.blockAt row.1).hash

/-- The four ways of having nothing to do. -/
inductive IdleCase
  | atTip
  | ahead
  | below
  | waiting

/-- What each of them says of the cache. -/
def IdleCase.Holds (chain : NodeChain) (start : Nat) (cache : Cache) : IdleCase → Prop
  | atTip => cache.latestHeight = some chain.tip ∧
      cache.latestHash = .ok (some (chain.blockAt chain.tip).hash)
  | ahead => (∃ tip, cache.latestHeight = some tip ∧ chain.tip < tip) ∧
      ∃ block, cache.get chain.tip = .ok (some block) ∧
        block.hash = (chain.blockAt chain.tip).hash
  | below => ∃ base tip, cache.range = some (base, tip) ∧ chain.tip < base
  | waiting => cache.latestHeight = none ∧ chain.tip < start

theorem Cache.Stored.tip_eq {row : Nat × Bytes} (h : cache.Stored)
    (hlast : cache.blocks.last = some row) :
    ∃ block, Prost.decode row.2 = .ok block ∧ cache.latestHeight = some row.1 ∧
      cache.latestHash = .ok (some block.hash) := by
  obtain ⟨block, hdecode, -⟩ := h.rows row (Table.last_mem hlast)
  refine ⟨block, hdecode, by rw [Cache.latestHeight, hlast]; rfl, ?_⟩
  simp only [Cache.latestHash, hlast, Cache.decodeBlock, hdecode, Except.mapError, Except.map]

omit [Prost] in
theorem Readable.truncated {base : Option Nat} (hbase : cache.snapshotBaseHeight = .ok base)
    (cut : Nat) : Readable (cache.truncated cut base) := by
  show ∃ base', decodeBaseHeight ((cache.metaRows.retain fun key _ =>
    Cache.keepsMeta cut (base.any fun b => cut ≤ b) key).get snapshotBaseHeightKey) = .ok base'
  rw [Table.get_retain]
  rcases hget : cache.metaRows.get snapshotBaseHeightKey with _ | value
  · exact ⟨none, rfl⟩
  · unfold Cache.snapshotBaseHeight at hbase
    rw [hget] at hbase
    by_cases hkeep : Cache.keepsMeta cut (base.any fun b => cut ≤ b) snapshotBaseHeightKey = true
    · exact ⟨base, by simpa [Option.filter, hkeep] using hbase⟩
    · exact ⟨none, by simp [Option.filter, hkeep, decodeBaseHeight]⟩

omit [Prost] in
theorem Readable.removeFrom (h : Readable cache) {row : Nat × Bytes}
    (hlast : cache.blocks.last = some row) {cut : Nat} (hcut : cut ≤ row.1) :
    (cache.removeFrom cut).2 = .ok () ∧
      (cache.removeFrom cut).1.blocks.len < cache.blocks.len ∧
      Readable (cache.removeFrom cut).1 := by
  obtain ⟨base, hbase⟩ := h
  rw [Cache.removeFrom_eq hbase]
  have hpre := Cache.prefix_truncated cache cut base
  refine ⟨rfl, lt_of_le_of_ne hpre.length_le ?_, Readable.truncated hbase cut⟩
  intro hlen
  have hrows := hpre.eq_of_length hlen
  have hmem : row ∈ (cache.truncated cut base).blocks.rows := by
    rw [hrows]
    exact Table.last_mem hlast
  have hlt : row.1 < cut := by simpa using (List.mem_filter.mp hmem).2
  omega

omit [Prost] in
/-- Rolling back the tip takes it away, whichever side of the floor it is on. -/
theorem Readable.rollBack (h : Readable cache) {row : Nat × Bytes}
    (hlast : cache.blocks.last = some row) (start : Nat) :
    (rollBack cache (row.1 - 1) start).2 = .ok .advanced ∧
      (rollBack cache (row.1 - 1) start).1.blocks.len < cache.blocks.len ∧
      Readable (rollBack cache (row.1 - 1) start).1 := by
  obtain ⟨cut, hcut, hreorg⟩ : ∃ cut, cut ≤ row.1 ∧
      reorgToFloor cache (row.1 - 1) start = cache.removeFrom cut := by
    unfold reorgToFloor
    simp only [Cache.latestHeight, hlast, Option.map_some, Option.all_some, decide_eq_true_eq]
    by_cases hfloor : row.1 - 1 < start ∨ row.1 - 1 ≥ row.1
    · exact ⟨0, Nat.zero_le _, by rw [if_pos hfloor]; rfl⟩
    · refine ⟨satAdd (row.1 - 1) 1, ?_, by rw [if_neg hfloor]; rfl⟩
      have := Nat.min_le_left (row.1 - 1 + 1) u64Max
      unfold satAdd
      omega
  obtain ⟨hok, hlen, hread⟩ := h.removeFrom hlast hcut
  unfold Lightwalletd.rollBack
  rw [hreorg]
  rcases hremove : cache.removeFrom cut with ⟨cache', error | u⟩
  · rw [hremove] at hok
    cases hok
  · rw [hremove] at hlen hread
    exact ⟨rfl, hlen, hread⟩

/-- A step that appended: the rows are there and more, the tip is higher and on the
chain. -/
structure NodeChain.Advances (chain : NodeChain) (cache cache' : Cache) : Prop where
  rows : ∃ new, new ≠ [] ∧ cache'.blocks.rows = cache.blocks.rows ++ new
  tipOn : chain.TipOn cache'
  higher : ∀ row row', cache.blocks.last = some row → cache'.blocks.last = some row' →
    row.1 < row'.1
  readable : Readable cache → Readable cache'

/-- A window of the chain that starts on the tip is appended. -/
theorem NodeChain.Agrees.ingestWindow_advances [BlockParser] {env : StepEnv}
    (h : chain.Agrees env) (config : IngestConfig) {next : Nat} (hnext : next ≤ chain.tip)
    (hjoin : ∀ row, cache.blocks.last = some row → next = row.1 + 1)
    {prevHash : Option Bytes} (hhash : cache.latestHash = .ok prevHash)
    (hprev : ∀ prev ∈ prevHash, (chain.blockAt next).prevHash = prev) :
    (ingestWindow env cache start config chain.tip next).2 = .ok .advanced ∧
      chain.Advances cache (ingestWindow env cache start config chain.tip next).1 := by
  obtain ⟨last, hlast⟩ : ∃ l, l = min chain.tip (satAdd next (config.window - 1)) := ⟨_, rfl⟩
  have hbelow := chain.below
  have hge : next ≤ last := by
    rw [hlast]
    unfold satAdd
    omega
  have hle : last ≤ chain.tip := by omega
  obtain ⟨count, hcount⟩ : ∃ c, c = last + 1 - next := ⟨_, rfl⟩
  obtain ⟨hrows, hpanicked⟩ := h.window_eq (by omega : next + count ≤ chain.tip + 1)
    config.concurrency
  have hkeep := chain.keepChained_all count next prevHash [] (by omega) hprev
  have hlen : ((List.range' next count).map chain.blockAt).length = count := by simp
  have hheights : ((List.range' next count).map chain.blockAt).map (·.height)
      = List.range' next ((List.range' next count).map chain.blockAt).length := by
    rw [hlen, List.map_map]
    refine (List.map_congr_left fun k hk => ?_).trans (List.map_id _)
    have := List.mem_range'_1.mp hk
    exact chain.height k (by omega)
  have hne : (List.range' next count).map chain.blockAt ≠ [] := by
    intro hnil
    rw [hnil] at hlen
    simp at hlen
    omega
  have hmax : ∀ block ∈ (List.range' next count).map chain.blockAt, block.height < u64Max := by
    intro block hblock
    obtain ⟨k, hk, rfl⟩ := List.mem_map.mp hblock
    have := List.mem_range'_1.mp hk
    rw [chain.height k (by omega)]
    omega
  obtain ⟨cache', happend, happ⟩ : ∃ cache',
      cache.append (((List.range' next count).map chain.blockAt).map .ok) none = (cache', .ok ()) ∧
      Cache.Appended cache ((List.range' next count).map chain.blockAt) none next cache' :=
    Cache.append_run hne hheights hjoin hmax
  have hresult : ingestWindow env cache start config chain.tip next = (cache', .ok .advanced) := by
    unfold ingestWindow
    simp only [← hlast, ← hcount, hhash, hrows, hkeep, hpanicked, List.nil_append,
      Option.map_none, Option.or_none]
    unfold commitWindow
    rw [if_neg (by simpa using hne)]
    simp only [Cache.addBatch, happend]
  rw [hresult]
  refine ⟨rfl, ⟨_, by simpa using hne, happ.rows⟩, ?_, ?_, ?_⟩
  · refine ⟨Cache.rowOf (chain.blockAt last), chain.blockAt last, ?_, Prost.decode_encode _, ?_, ?_⟩
    · rw [Table.last_of_append happ.rows (by simpa using hne), List.getLast?_map, List.getLast?_map,
        List.getLast?_range', if_neg (by omega)]
      simp only [Option.map_some]
      congr 3
      omega
    · rw [Cache.rowOf, chain.height last hle]
      exact hle
    · rw [Cache.rowOf, chain.height last hle]
  · intro row row' hrow hrow'
    have htop := happ.latestHeight.1
    rw [Cache.latestHeight, hrow', Option.map_some] at htop
    have := Option.some.inj htop
    have := hjoin row hrow
    omega
  · rintro ⟨base, hbase⟩
    refine ⟨base, ?_⟩
    have hmeta : cache'.metaRows = cache.metaRows := happ.metaRows
    unfold Cache.snapshotBaseHeight at hbase ⊢
    rw [hmeta]
    exact hbase

/-- A step that rolled back: rows are gone, and the tip was not on the chain. -/
structure NodeChain.RollsBack (chain : NodeChain) (cache cache' : Cache) : Prop where
  fewer : cache'.blocks.len < cache.blocks.len
  off : ¬chain.TipOn cache
  readable : Readable cache'

theorem NodeChain.tipOn_iff (chain : NodeChain) {row : Nat × Bytes} {block : CompactBlock}
    (hlast : cache.blocks.last = some row) (hdecode : Prost.decode row.2 = .ok block) :
    chain.TipOn cache ↔ row.1 ≤ chain.tip ∧ block.hash = (chain.blockAt row.1).hash := by
  constructor
  · rintro ⟨row', block', hlast', hdecode', hle, hhash⟩
    obtain rfl : row = row' := Option.some.inj (hlast.symm.trans hlast')
    obtain rfl : block = block' := Except.ok.inj (hdecode.symm.trans hdecode')
    exact ⟨hle, hhash⟩
  · rintro ⟨hle, hhash⟩
    exact ⟨row, block, hlast, hdecode, hle, hhash⟩

/-- **A step on the chain** is idle for one of the four reasons, rolls back a tip
that is not on the chain, or appends. -/
theorem NodeChain.Agrees.step_cases [BlockParser] {env : StepEnv} (h : chain.Agrees env)
    (hgood : cache.Good) (hread : Readable cache) (start : Nat) (config : IngestConfig) :
    (step env cache start config = (cache, .ok .idle) ∧ ∃ c, IdleCase.Holds chain start cache c) ∨
    ((step env cache start config).2 = .ok .advanced ∧
      chain.RollsBack cache (step env cache start config).1) ∨
    ((step env cache start config).2 = .ok .advanced ∧
      chain.Advances cache (step env cache start config).1) := by
  obtain ⟨info, hinfo, hblocks, hbest⟩ := h.info
  have hstored := hgood.toStored
  unfold step
  simp only [hinfo]
  rcases hlast : cache.blocks.last with _ | row
  · -- Nothing cached: wait for the floor, or start there.
    have hnone : cache.latestHeight = none := by rw [Cache.latestHeight, hlast]; rfl
    have hcompare : compareTip cache info start = .ok (.fetchFrom start) := by
      simp only [compareTip, hnone]
    simp only [hcompare, hblocks]
    by_cases habove : start > chain.tip
    · rw [if_pos habove]
      exact Or.inl ⟨rfl, .waiting, hnone, habove⟩
    · rw [if_neg habove]
      have hhash : cache.latestHash = .ok none := by simp only [Cache.latestHash, hlast]
      exact Or.inr (Or.inr (h.ingestWindow_advances config (by omega) (by simp [hlast]) hhash
        (by simp)))
  obtain ⟨block, hdecode, hlatest, hhash⟩ := hstored.tip_eq hlast
  have htip := chain.tipOn_iff hlast hdecode
  obtain ⟨hrolled, hfewer, hreadable⟩ := hread.rollBack hlast start
  rcases Nat.lt_trichotomy row.1 chain.tip with hlt | heq | hgt
  · -- Below the node's tip: the next block follows the tip, or replaces it.
    simp only [compareTip_behind start hlatest (hblocks ▸ hlt), hblocks]
    rw [if_neg (by omega)]
    by_cases hfollows : (chain.blockAt (row.1 + 1)).prevHash = block.hash
    · refine Or.inr (Or.inr (h.ingestWindow_advances config (by omega) ?_ hhash ?_))
      · intro row' hrow'
        rw [Option.some.inj (hlast.symm.trans hrow')]
      · intro prev hprev
        rw [hfollows]
        exact Option.some.inj hprev
    · refine Or.inr (Or.inl ?_)
      have hwindow : ingestWindow env cache start config chain.tip (row.1 + 1)
          = rollBack cache (row.1 - 1) start := by
        unfold ingestWindow
        have hbelow := chain.below
        obtain ⟨last, hl⟩ : ∃ l, l = min chain.tip (satAdd (row.1 + 1) (config.window - 1)) :=
          ⟨_, rfl⟩
        have hge : row.1 + 1 ≤ last := by
          rw [hl]
          unfold satAdd
          omega
        have hkeep := chain.keepChained_reorg (by omega : 0 < last + 1 - (row.1 + 1)) hfollows
        have hrows := (h.window_eq (by omega : row.1 + 1 + (last + 1 - (row.1 + 1)) ≤ chain.tip + 1)
          config.concurrency).1
        simp only [← hl, hhash, hrows, hkeep]
        congr 1
      rw [hwindow]
      refine ⟨hrolled, hfewer, ?_, hreadable⟩
      rw [htip]
      rintro ⟨-, hsame⟩
      exact hfollows (hsame ▸ chain.linked row.1 hlt)
  · -- At the node's tip: the same block or another one.
    have hcompare := compareTip_level start hlatest (heq.trans hblocks.symm) hbest hhash
    by_cases hsame : block.hash = (chain.blockAt chain.tip).hash
    · rw [if_pos hsame] at hcompare
      simp only [hcompare, true_and]
      exact Or.inl ⟨.atTip, by rw [hlatest, heq], by rw [hhash, hsame]⟩
    · rw [if_neg hsame] at hcompare
      simp only [hcompare]
      refine Or.inr (Or.inl ⟨hrolled, hfewer, ?_, hreadable⟩)
      rw [htip, heq]
      exact fun hon => hsame hon.2
  · -- Above it: nothing to compare with, the same block at the node's tip, or another one.
    have hoff : ¬chain.TipOn cache := by
      rw [htip]
      exact fun hon => by omega
    rcases hget : cache.blocks.get chain.tip with _ | value
    · have hcompare := compareTip_ahead start hlatest (hblocks ▸ hgt) hbest
        (by rw [hblocks, Cache.get, hget] : cache.get info.blocks = .ok none)
      simp only [hcompare, Option.any_none, Bool.false_eq_true, if_false, true_and]
      refine Or.inl ⟨.below, ?_⟩
      rcases hfirst : cache.blocks.first with _ | ⟨base, v⟩
      · rw [Table.last, Table.first_eq_none_iff.mp hfirst] at hlast
        simp at hlast
      refine ⟨base, row.1, by simp only [Cache.range, hfirst, hlast], ?_⟩
      by_contra hle
      have hmem : chain.tip ∈ cache.blocks.keys :=
        (hstored.contiguous.mem_keys_iff hfirst hlast).mpr ⟨by omega, by omega⟩
      obtain ⟨value, hvalue⟩ := Table.mem_keys.mp hmem
      exact Table.get_eq_none_iff.mp hget value hvalue
    · obtain ⟨found, -, -, hfound⟩ := hstored.get_eq hget
      have hcompare := compareTip_ahead start hlatest (hblocks ▸ hgt) hbest
        (hblocks ▸ hfound : cache.get info.blocks = .ok (some found))
      by_cases hsame : found.hash = (chain.blockAt chain.tip).hash
      · simp only [hcompare, hsame, Option.any_some, ne_eq, not_true_eq_false, decide_false,
          Bool.false_eq_true, if_false, true_and]
        exact Or.inl ⟨.ahead, ⟨row.1, hlatest, hgt⟩, found, hfound, hsame⟩
      · simp only [hcompare, hsame, Option.any_some, ne_eq, not_false_eq_true, decide_true,
          if_true]
        exact Or.inr (Or.inl ⟨hrolled, hfewer, hoff, hreadable⟩)

/-! ### The whole run

Each step that is not idle takes the cache closer to the chain: by a row that has to go,
or by blocks that were missing.  Once the tip is on the chain it stays there.
-/

/-- What a step keeps of a good cache whose base height can be read. -/
theorem NodeChain.Agrees.step_keeps [BlockParser] {env : StepEnv} (h : chain.Agrees env)
    (hgood : cache.Good) (hread : Readable cache) (start : Nat) (config : IngestConfig) :
    (step env cache start config).1.Good ∧ Readable (step env cache start config).1 := by
  refine ⟨?_, ?_⟩
  · rcases Lightwalletd.step_cases env cache start config with hsame | hdropped | hextended
    · rw [hsame]; exact hgood
    · exact hdropped.good hgood
    · exact hextended.good hgood
  · rcases h.step_cases hgood hread start config with ⟨hidle, -⟩ | ⟨-, hback⟩ | ⟨-, hmore⟩
    · rw [hidle]; exact hread
    · exact hback.readable
    · exact hmore.readable hread

open Classical in
/-- How far a cache is from being idle: on the chain, what is missing to the tip, and
off it, more than that for every row that may have to go. -/
noncomputable def NodeChain.distance (chain : NodeChain) (cache : Cache) : Nat :=
  if chain.TipOn cache then chain.tip - (cache.blocks.last.map (·.1)).getD 0
  else cache.blocks.len + chain.tip + 1

theorem NodeChain.distance_on {row : Nat × Bytes} (h : chain.TipOn cache)
    (hlast : cache.blocks.last = some row) :
    chain.distance cache = chain.tip - row.1 ∧ row.1 ≤ chain.tip := by
  have ⟨row', _, hlast', _, hle, _⟩ := h
  obtain rfl : row = row' := Option.some.inj (hlast.symm.trans hlast')
  refine ⟨?_, hle⟩
  rw [distance, if_pos h, hlast]
  rfl

theorem NodeChain.distance_off (h : ¬chain.TipOn cache) :
    chain.distance cache = cache.blocks.len + chain.tip + 1 := by
  rw [distance, if_neg h]

theorem NodeChain.distance_le (chain : NodeChain) (cache : Cache) :
    chain.distance cache ≤ cache.blocks.len + chain.tip + 1 := by
  unfold distance
  split <;> omega

theorem NodeChain.Advances.distance_lt (h : chain.Advances cache cache') :
    chain.distance cache' < chain.distance cache := by
  obtain ⟨row', block', hlast', -⟩ := h.tipOn
  obtain ⟨hdist', hle'⟩ := NodeChain.distance_on h.tipOn hlast'
  by_cases hon : chain.TipOn cache
  · have ⟨row, _, hlast, _⟩ := hon
    obtain ⟨hdist, hle⟩ := NodeChain.distance_on hon hlast
    have hlt := h.higher row row' hlast hlast'
    omega
  · rw [hdist', NodeChain.distance_off hon]
    omega

theorem NodeChain.RollsBack.distance_lt (h : chain.RollsBack cache cache') :
    chain.distance cache' < chain.distance cache := by
  have hle := chain.distance_le cache'
  have hfewer := h.fewer
  by_cases hon : chain.TipOn cache'
  · have ⟨row', _, hlast', _⟩ := hon
    obtain ⟨hdist', hle'⟩ := NodeChain.distance_on hon hlast'
    rw [hdist', NodeChain.distance_off h.off]
    omega
  · rw [NodeChain.distance_off hon, NodeChain.distance_off h.off]
    omega

theorem IdleCase.unique (hgood : cache.Good) {c c' : IdleCase}
    (h : c.Holds chain start cache) (h' : c'.Holds chain start cache) : c = c' := by
  have hrange : ∀ base tip, cache.range = some (base, tip) →
      cache.latestHeight = some tip ∧ ∀ height block, cache.get height = .ok (some block) →
        base ≤ height := by
    intro base tip hrange
    obtain ⟨v, w, hfirst, -⟩ := Cache.range_eq hrange
    refine ⟨Cache.latestHeight_of_range hrange, ?_⟩
    intro height block hget
    rcases hvalue : cache.blocks.get height with _ | value
    · simp [Cache.get, hvalue] at hget
    · exact Table.first_le (Table.get_eq_some_iff.mp hvalue) hfirst
  have hbelow : ∀ base tip, cache.range = some (base, tip) → base ≤ tip := by
    intro base tip hr
    obtain ⟨v, w, hfirst, hlast⟩ := Cache.range_eq hr
    exact (hgood.toStored.contiguous.last_key hfirst hlast).1
  rcases c with _ | _ | _ | _ <;> rcases c' with _ | _ | _ | _ <;> try rfl
  all_goals exfalso
  · obtain ⟨⟨tip, htip, hlt⟩, -⟩ := h'
    have := Option.some.inj (h.1.symm.trans htip)
    omega
  · obtain ⟨base, tip, hr, hlt⟩ := h'
    have := Option.some.inj (h.1.symm.trans (hrange base tip hr).1)
    have := hbelow base tip hr
    omega
  · exact absurd (h.1.symm.trans h'.1) (by simp)
  · obtain ⟨⟨tip, htip, hlt⟩, -⟩ := h
    have := Option.some.inj (h'.1.symm.trans htip)
    omega
  · obtain ⟨-, block, hget, -⟩ := h
    obtain ⟨base, tip, hr, hlt⟩ := h'
    have := (hrange base tip hr).2 _ _ hget
    omega
  · obtain ⟨⟨tip, htip, -⟩, -⟩ := h
    exact absurd (htip.symm.trans h'.1) (by simp)
  · obtain ⟨base, tip, hr, hlt⟩ := h
    have := Option.some.inj (h'.1.symm.trans (hrange base tip hr).1)
    have := hbelow base tip hr
    omega
  · obtain ⟨-, block, hget, -⟩ := h'
    obtain ⟨base, tip, hr, hlt⟩ := h
    have := (hrange base tip hr).2 _ _ hget
    omega
  · obtain ⟨base, tip, hr, -⟩ := h
    exact absurd ((hrange base tip hr).1.symm.trans h'.1) (by simp)
  · exact absurd (h'.1.symm.trans h.1) (by simp)
  · obtain ⟨⟨tip, htip, -⟩, -⟩ := h'
    exact absurd (htip.symm.trans h.1) (by simp)
  · obtain ⟨base, tip, hr, -⟩ := h'
    exact absurd ((hrange base tip hr).1.symm.trans h.1) (by simp)

section

variable [BlockParser] (envs : Nat → StepEnv) (start : Nat) (config : IngestConfig) (cache : Cache)

/-- The cache before the `n`-th step of a run. -/
def stateAt : Nat → Cache
  | 0 => cache
  | n + 1 => (step (envs n) (stateAt n) start config).1

/-- How the `n`-th step ended. -/
def resultAt (n : Nat) : Except StepError Progress :=
  (step (envs n) (stateAt envs start config cache n) start config).2

end

/-- The second cache is the first one with rows added. -/
def Appends (cache cache' : Cache) : Prop :=
  ∃ new, new ≠ [] ∧ cache'.blocks.rows = cache.blocks.rows ++ new

/--
**Ingestion converges and never oscillates.**  Against a node on one chain, from any
good cache and with any window and concurrency, the steps advance until one is
idle; once a step has appended blocks, no later step takes any away; and whenever a
step is idle, exactly one of the four reasons holds.
-/
theorem ingestion_converges [BlockParser] (chain : NodeChain) (start : Nat)
    (config : IngestConfig) (cache : Cache) (hgood : cache.Good) (hread : Readable cache)
    (envs : Nat → StepEnv) (henvs : ∀ n, chain.Agrees (envs n)) :
    (∃ n, (∀ m < n, resultAt envs start config cache m = .ok .advanced) ∧
      resultAt envs start config cache n = .ok .idle) ∧
    (∀ n m, n < m →
      Appends (stateAt envs start config cache n) (stateAt envs start config cache (n + 1)) →
      (stateAt envs start config cache m).blocks.rows
        <+: (stateAt envs start config cache (m + 1)).blocks.rows) ∧
    ∀ n, resultAt envs start config cache n = .ok .idle →
      ∃! c : IdleCase, c.Holds chain start (stateAt envs start config cache n) := by
  have hinv : ∀ n, (stateAt envs start config cache n).Good ∧
      Readable (stateAt envs start config cache n) := by
    intro n
    induction n with
    | zero => exact ⟨hgood, hread⟩
    | succ n ih => exact (henvs n).step_keeps ih.1 ih.2 start config
  have hcases := fun n => (henvs n).step_cases (hinv n).1 (hinv n).2 start config
  refine ⟨?_, ?_, ?_⟩
  · -- Each step that is not idle lowers the distance.
    have hreach : ∀ k n, chain.distance (stateAt envs start config cache n) ≤ k →
        (∀ m < n, resultAt envs start config cache m = .ok .advanced) →
        ∃ n, (∀ m < n, resultAt envs start config cache m = .ok .advanced) ∧
          resultAt envs start config cache n = .ok .idle := by
      intro k
      induction k with
      | zero =>
          intro n hdist hbefore
          rcases hcases n with ⟨hidle, -⟩ | ⟨-, hback⟩ | ⟨-, hmore⟩
          · exact ⟨n, hbefore, by rw [resultAt, hidle]⟩
          · have := hback.distance_lt
            omega
          · have := hmore.distance_lt
            omega
      | succ k ih =>
          intro n hdist hbefore
          have hnext : resultAt envs start config cache n = .ok .advanced →
              ∀ m < n + 1, resultAt envs start config cache m = .ok .advanced := by
            intro hn m hm
            rcases Nat.lt_succ_iff_lt_or_eq.mp hm with hlt | rfl
            · exact hbefore m hlt
            · exact hn
          rcases hcases n with ⟨hidle, -⟩ | ⟨hadv, hback⟩ | ⟨hadv, hmore⟩
          · exact ⟨n, hbefore, by rw [resultAt, hidle]⟩
          · exact ih (n + 1) (Nat.le_of_lt_succ (lt_of_lt_of_le hback.distance_lt hdist))
              (hnext hadv)
          · exact ih (n + 1) (Nat.le_of_lt_succ (lt_of_lt_of_le hmore.distance_lt hdist))
              (hnext hadv)
    exact hreach _ 0 (Nat.le_refl _) (by simp)
  · intro n m hlt happends
    -- From the append on, the tip is on the chain.
    have hon : ∀ j, chain.TipOn (stateAt envs start config cache (n + 1 + j)) := by
      intro j
      induction j with
      | zero =>
          obtain ⟨new, hne, hrows⟩ := happends
          have hlen := congrArg List.length hrows
          rw [List.length_append] at hlen
          have hpos := List.length_pos_iff_ne_nil.mpr hne
          rcases hcases n with ⟨hidle, -⟩ | ⟨-, hback⟩ | ⟨-, hmore⟩
          · have hsame : stateAt envs start config cache (n + 1)
                = stateAt envs start config cache n := by rw [stateAt, hidle]
            rw [hsame] at hlen
            omega
          · have hfewer : (stateAt envs start config cache (n + 1)).blocks.rows.length
                < (stateAt envs start config cache n).blocks.rows.length := hback.fewer
            omega
          · exact hmore.tipOn
      | succ j ih =>
          rcases hcases (n + 1 + j) with ⟨hidle, -⟩ | ⟨-, hback⟩ | ⟨-, hmore⟩
          · have hsame : stateAt envs start config cache (n + 1 + (j + 1))
                = stateAt envs start config cache (n + 1 + j) := by
              rw [← Nat.add_assoc, stateAt, hidle]
            rw [hsame]
            exact ih
          · exact absurd ih hback.off
          · exact hmore.tipOn
    have hm := hon (m - (n + 1))
    rw [show n + 1 + (m - (n + 1)) = m by omega] at hm
    rcases hcases m with ⟨hidle, -⟩ | ⟨-, hback⟩ | ⟨-, hmore⟩
    · have hsame : stateAt envs start config cache (m + 1) = stateAt envs start config cache m := by
        rw [stateAt, hidle]
      rw [hsame]
    · exact absurd hm hback.off
    · obtain ⟨new, -, hrows⟩ := hmore.rows
      exact ⟨new, hrows.symm⟩
  · intro n hidle
    rcases hcases n with ⟨-, c, hc⟩ | ⟨hadv, -⟩ | ⟨hadv, -⟩
    · exact ⟨c, hc, fun c' hc' => IdleCase.unique (hinv n).1 hc' hc⟩
    · exact absurd (hidle.symm.trans hadv) (by simp)
    · exact absurd (hidle.symm.trans hadv) (by simp)

end

/-! ### The chain of two blocks -/

def twoBlockChain : NodeChain where
  blockAt := fetchedAt
  tip := 1
  height _ h := compactBlock_height (fetchedAt_eq (by omega))
  linked h hlt := by
    change h < 1 at hlt
    exact fetchedAt_linked (by omega)
  below := by decide

theorem twoBlockChain_agrees : twoBlockChain.Agrees twoBlockEnv := by
  refine ⟨⟨_, rfl, rfl, ?_⟩, fun h hle => ⟨repliesAt h, rfl, ?_⟩⟩
  swap
  · change h ≤ 1 at hle
    exact fetchedAt_eq (by omega)
  show displayHexToWire (wireToDisplayHex (sha256d (headerAt 1))) = .ok (fetchedAt 1).hash
  rw [displayHexToWire_wireToDisplayHex]
  decide +kernel

/-- From an empty cache, with a window of one block and no permits configured. -/
theorem twoBlockChain_converges :
    ∃ n, (∀ m < n, resultAt (fun _ => twoBlockEnv) 0 ⟨1, 0⟩ Cache.empty m = .ok .advanced) ∧
      resultAt (fun _ => twoBlockEnv) 0 ⟨1, 0⟩ Cache.empty n = .ok .idle ∧
      ∃! c : IdleCase,
        c.Holds twoBlockChain 0 (stateAt (fun _ => twoBlockEnv) 0 ⟨1, 0⟩ Cache.empty n) := by
  obtain ⟨⟨n, hbefore, hidle⟩, -, hcases⟩ := ingestion_converges twoBlockChain 0 ⟨1, 0⟩ Cache.empty
    Cache.chained_empty ⟨none, rfl⟩ (fun _ => twoBlockEnv) fun _ => twoBlockChain_agrees
  exact ⟨n, hbefore, hidle, hcases n hidle⟩

end Lightwalletd
