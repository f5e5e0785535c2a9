/-
An honest peer and an agreeing node.

Over one chain of blocks, an epoch is served honestly if its body is written from
rows that decode to the chain's blocks, and its manifest entry describes that body.
Every layer of the verification then accepts it, the anchor too if the node knows
the same hashes, and its append continues a cache that already holds a run of the
same chain.
-/
import Lightwalletd.Proofs.Body

namespace Lightwalletd

/-! ### A chain -/

/-- `block` is a chain from `low` to `high`: linked, with growing trees. -/
structure ChainSegment (block : Nat → CompactBlock) (low high : Nat) : Prop where
  height : ∀ h, low ≤ h → h ≤ high → (block h).height = h
  linked : ∀ h, low ≤ h → h < high → Extends (block h) (block (h + 1))
  below : high < u64Max

/-- The blocks of `count` heights from `start` on. -/
def blocksFrom (block : Nat → CompactBlock) (start count : Nat) : List CompactBlock :=
  (List.range' start count).map block

namespace ChainSegment

variable {block : Nat → CompactBlock} {low high start count : Nat}

theorem heights (h : ChainSegment block low high) (hlow : low ≤ start)
    (hhigh : start + count ≤ high + 1) :
    (blocksFrom block start count).map (·.height) = List.range' start count := by
  rw [blocksFrom, List.map_map]
  conv_rhs => rw [← List.map_id (List.range' start count)]
  refine List.map_congr_left ?_
  intro n hn
  obtain ⟨hle, hlt⟩ := List.mem_range'_1.mp hn
  exact h.height n (by omega) (by omega)

theorem isChain (h : ChainSegment block low high) (hlow : low ≤ start)
    (hhigh : start + count ≤ high + 1) : (blocksFrom block start count).IsChain Extends := by
  rw [blocksFrom]
  induction count generalizing start with
  | zero => exact List.isChain_nil
  | succ count ih =>
      rw [List.range'_succ, List.map_cons]
      refine List.isChain_cons.mpr ⟨?_, ih (by omega) (by omega)⟩
      intro next hnext
      rcases count with _ | count
      · cases hnext
      · obtain rfl : block (start + 1) = next := Option.some.inj hnext
        exact h.linked start hlow (by omega)

theorem blocks_below (h : ChainSegment block low high)
    (hheights : (blocksFrom block start count).map (·.height) = List.range' start count)
    (hhigh : start + count ≤ high + 1) :
    ∀ b ∈ blocksFrom block start count, b.height < u64Max := by
  intro b hb
  have hmem : b.height ∈ (blocksFrom block start count).map (·.height) := List.mem_map_of_mem hb
  rw [hheights] at hmem
  have hrange := List.mem_range'_1.mp hmem
  have hbelow := h.below
  omega

end ChainSegment

theorem blocksFrom_length (block : Nat → CompactBlock) (start count : Nat) :
    (blocksFrom block start count).length = count := by
  simp [blocksFrom]

/-- The anchor of a run folds in each block's own height. -/
theorem foldAnchor_eq_foldl :
    ∀ (blocks : List CompactBlock) (start : Nat) (folded : Bytes),
      blocks.map (·.height) = List.range' start blocks.length →
      foldAnchor start folded (blocks.map (·.hash))
        = blocks.foldl (fun folded block => anchorUpdate folded block.height block.hash)
          folded := by
  intro blocks
  induction blocks with
  | nil =>
      intro start folded _
      rfl
  | cons block blocks ih =>
      intro start folded h
      rw [List.map_cons, List.length_cons, List.range'_succ, List.cons.injEq] at h
      rw [List.map_cons, foldAnchor, List.foldl_cons, ih (start + 1) _ h.2, h.1]

/-! ### An honest epoch

What an honest peer serves for an entry passes each of the layers.
-/

section

variable [Prost] [Sha256] {block : Nat → CompactBlock} {chain : String} {entry : EpochEntry}
  {rows : List (Nat × Bytes)} {low high : Nat}

/-- `rows` are the chain's blocks at the heights of `entry`, and `entry` describes the
body written from them. -/
structure ServedRows (chain : String) (block : Nat → CompactBlock) (entry : EpochEntry)
    (rows : List (Nat × Bytes)) : Prop where
  bounds : entry.start ≤ entry.stop
  keys : rows.map (·.1) = List.range' entry.start (entry.stop + 1 - entry.start)
  decode : ∀ row ∈ rows, Prost.decode row.2 = .ok (block row.1)
  bytes : entry.bytes = (bodyOf chain entry.start rows).length
  limit : entry.bytes ≤ maxEpochBytes
  content : entry.contentDigest = hexEncode (contentDigest (bodyOf chain entry.start rows))
  anchor : entry.anchor = hexEncode (anchorFinish (foldAnchor entry.start []
    ((blocksFrom block entry.start (entry.stop + 1 - entry.start)).map (·.hash))))

/-- `body` is the body of an epoch served honestly. -/
def ServedBody (chain : String) (block : Nat → CompactBlock) (entry : EpochEntry) (body : Bytes) :
    Prop :=
  ∃ rows, ServedRows chain block entry rows ∧ body = bodyOf chain entry.start rows

omit [Prost] [Sha256] in
/-- A body is longer than any of its records, and than their number. -/
private theorem recordsOf_length (rows : List (Nat × Bytes)) :
    rows.length ≤ (recordsOf rows).length ∧
      ∀ row ∈ rows, row.2.length ≤ (recordsOf rows).length := by
  induction rows with
  | nil => simp
  | cons row rows ih =>
      have hlen : (recordsOf (row :: rows)).length
          = 4 + row.2.length + (recordsOf rows).length := by
        simp [recordsOf, Nat.add_assoc]
      refine ⟨by rw [List.length_cons]; omega, ?_⟩
      intro r hr
      rcases List.mem_cons.mp hr with rfl | hr
      · omega
      · have := ih.2 r hr
        omega

namespace ServedRows

theorem fits (h : ServedRows chain block entry rows) :
    rows.length < 2 ^ 32 ∧ ∀ row ∈ rows, row.2.length < 2 ^ 32 := by
  have hbytes := h.bytes
  have hlimit := h.limit
  have hle : (recordsOf rows).length ≤ (bodyOf chain entry.start rows).length := by
    rw [bodyOf, List.length_append]
    omega
  obtain ⟨hcount, hrows⟩ := recordsOf_length rows
  simp only [maxEpochBytes] at hlimit
  refine ⟨by omega, fun row hrow => ?_⟩
  have := hrows row hrow
  omega

theorem count (h : ServedRows chain block entry rows) :
    rows.length = entry.stop - entry.start + 1 := by
  have hlen := congrArg List.length h.keys
  have hle := h.bounds
  simp only [List.length_map, List.length_range'] at hlen
  omega

theorem decode_eq (h : ServedRows chain block entry rows) :
    (rows.map (·.2)).map Prost.decode
      = (blocksFrom block entry.start (entry.stop + 1 - entry.start)).map .ok := by
  rw [blocksFrom, ← h.keys, List.map_map, List.map_map, List.map_map]
  refine List.map_congr_left ?_
  intro row hrow
  exact h.decode row hrow

theorem checkBody (h : ServedRows chain block entry rows) (hchain : validChain chain = true)
    (hsegment : ChainSegment block low high) (hlow : low ≤ entry.start)
    (hhigh : entry.stop ≤ high) :
    checkBody (bodyOf chain entry.start rows) entry chain
      = .ok (rows.map (·.2),
        (blocksFrom block entry.start (entry.stop + 1 - entry.start)).map (·.hash)) := by
  have hle := h.bounds
  have hbelow := hsegment.below
  have hparse : parseEpoch (bodyOf chain entry.start rows)
      = .ok ({ chain := chain, start := entry.start, count := rows.length }, rows.map (·.2)) :=
    parseEpoch_bodyOf hchain (by omega) h.fits.1 h.fits.2
  have hrecords : verifyRecords entry.index entry.start none (rows.map (·.2))
      = .ok ((blocksFrom block entry.start (entry.stop + 1 - entry.start)).map (·.hash)) := by
    refine (verifyRecords_eq_ok _ _ _ _).mpr ⟨_, h.decode_eq, ?_, ?_, rfl⟩
    · rw [blocksFrom_length]
      exact hsegment.heights hlow (by omega)
    · exact hsegment.isChain hlow (by omega)
  unfold Lightwalletd.checkBody checkLength verifyBody
  simp only [Except.bind_eq_ok, Except.pure_eq_ok, Except.ensure_eq_ok, Except.mapError_eq_ok]
  exact ⟨(), h.bytes.symm, (), h.content.symm, _, hparse, (), rfl, (), ⟨rfl, h.count⟩, _, hrecords,
    rfl⟩

end ServedRows

/-! ### An agreeing node -/

/-- The node answers every batch with the hashes of the chain's blocks. -/
def NodeAgrees (block : Nat → CompactBlock) (lookup : LookupEnv) (start stop : Nat) : Prop :=
  ∀ (number : Nat) (batch : List Nat), (lookupBatches start stop)[number]? = some batch →
    lookup.reply number
      = .answered (.ok (batch.map fun height => wireToDisplayHex (block height).hash))

theorem ServedRows.verifyAnchor (h : ServedRows chain block entry rows) {lookup : LookupEnv}
    (hnode : NodeAgrees block lookup entry.start entry.stop) (concurrency : Nat) :
    Lightwalletd.verifyAnchor lookup concurrency entry
      ((blocksFrom block entry.start (entry.stop + 1 - entry.start)).map (·.hash)) = .ok () := by
  have hanswers : Answers lookup (lookupBatches entry.start entry.stop) := by
    intro number batch hbatch
    exact ⟨_, hnode number batch hbatch, by simp⟩
  obtain ⟨nodeHashes, hfetch⟩ := fetchBlockHashes_answers hanswers entry.index concurrency
  obtain ⟨hanswered, hall⟩ := fetchBlockHashes_ok hfetch
  have hagree : HashesAgree nodeHashes entry.start
      ((blocksFrom block entry.start (entry.stop + 1 - entry.start)).map (·.hash)) := by
    intro i hash hi
    rw [blocksFrom, List.getElem?_map, List.getElem?_map, Option.map_map] at hi
    obtain ⟨height, hheight, rfl⟩ := Option.map_eq_some_iff.mp hi
    have hlt : i < entry.stop + 1 - entry.start := by
      have := (List.getElem?_eq_some_iff.mp hheight).1
      simpa using this
    rw [List.getElem?_range' hlt, Nat.one_mul] at hheight
    obtain rfl := Option.some.inj hheight
    obtain ⟨display, hget⟩ := Option.isSome_iff_exists.mp
      (hall (entry.start + i) (by omega) (by omega))
    refine ⟨display, hget, ?_⟩
    obtain ⟨number, batch, hashes, hbatch, hreply, hzip⟩ :=
      hanswered _ (Table.get_eq_some_iff.mp hget)
    rw [hnode number batch hbatch] at hreply
    obtain rfl : batch.map (fun height => wireToDisplayHex (block height).hash) = hashes := by
      simpa using hreply
    have hpairs : batch.zip (batch.map fun height => wireToDisplayHex (block height).hash)
        = batch.map fun height => (height, wireToDisplayHex (block height).hash) := by
      rw [← List.zip_map', List.map_id']
    rw [hpairs] at hzip
    obtain ⟨height, -, heq⟩ := List.mem_map.mp hzip
    obtain ⟨rfl, rfl⟩ := Prod.mk.inj heq
    exact displayHexToWire_wireToDisplayHex _
  unfold Lightwalletd.verifyAnchor
  rw [hfetch, Except.ok_bind, (compareHashes_eq_ok _ _ _ _).mpr ⟨hagree, rfl⟩, Except.ok_bind]
  exact Except.ensure_pos h.anchor.symm

/-! ### A cache that holds a run of the chain

A cache on the chain is given by the heights it holds.  Landing an epoch makes more of
them, and nothing else of it matters.
-/

omit [Prost] [Sha256] in
private theorem blocksFrom_append (block : Nat → CompactBlock) (start count more : Nat) :
    blocksFrom block start count ++ blocksFrom block (start + count) more
      = blocksFrom block start (count + more) := by
  rw [blocksFrom, blocksFrom, blocksFrom, ← List.map_append, List.range'_append_1]

omit [Prost] [Sha256] in
private theorem blocksFrom_drop (block : Nat → CompactBlock) (start count skipped : Nat) :
    (blocksFrom block start count).drop skipped
      = blocksFrom block (start + skipped) (count - skipped) := by
  rw [blocksFrom, blocksFrom, ← List.map_drop, List.drop_range', Nat.mul_one]

/-- The cache holds exactly the chain's blocks from `low` to `high`, the first of them
as the base of a snapshot. -/
structure Holds (block : Nat → CompactBlock) (low high : Nat) (cache : Cache) : Prop where
  le : low ≤ high
  rows : cache.blocks.rows = (blocksFrom block low (high + 1 - low)).map Cache.rowOf
  base : cache.snapshotBaseHeight = .ok (some low)

/-- The cache holds the chain up to `tip`, or nothing at all. -/
def HoldsUpTo (block : Nat → CompactBlock) (low : Nat) : Option Nat → Cache → Prop
  | none, cache => cache = Cache.empty
  | some tip, cache => Holds block low tip cache

section

variable {cache cache' : Cache} {tip : Nat}

omit [Sha256]

theorem Holds.last (h : Holds block low tip cache) :
    cache.blocks.last = some (Cache.rowOf (block tip)) := by
  have hle := h.le
  rw [Table.last, h.rows, List.getLast?_map, blocksFrom, List.getLast?_map,
    List.getLast?_range', if_neg (by omega), Option.map_some, Option.map_some]
  congr 2
  congr 1
  omega

theorem Holds.latestHeight (h : Holds block low tip cache) (hsegment : ChainSegment block low high)
    (hhigh : tip ≤ high) : cache.latestHeight = some tip := by
  rw [Cache.latestHeight, h.last, Option.map_some, Cache.rowOf, hsegment.height tip h.le hhigh]

theorem HoldsUpTo.latestHeight {tip : Option Nat} (h : HoldsUpTo block low tip cache)
    (hsegment : ChainSegment block low high) (hhigh : ∀ t, tip = some t → t ≤ high) :
    cache.latestHeight = tip := by
  rcases tip with _ | tip
  · rw [show cache = Cache.empty from h]
    rfl
  · exact Holds.latestHeight h hsegment (hhigh tip rfl)

theorem Holds.stored (h : Holds block low tip cache) (hsegment : ChainSegment block low high)
    (hhigh : tip ≤ high) : cache.Stored := by
  have hle := h.le
  refine ⟨⟨low, ?_⟩, ?_⟩
  · rw [Table.keys, Table.len, h.rows, List.map_map, List.length_map, blocksFrom_length]
    exact hsegment.heights (Nat.le_refl low) (by omega)
  · intro row hrow
    rw [h.rows] at hrow
    obtain ⟨b, -, rfl⟩ := List.mem_map.mp hrow
    exact Cache.rowOk_rowOf b

theorem Holds.get_eq (h : Holds block low tip cache) (hsegment : ChainSegment block low high)
    (hhigh : tip ≤ high) (height : Nat) :
    cache.blocks.get height
      = if low ≤ height ∧ height ≤ tip then some (Prost.encode (block height)) else none := by
  have hle := h.le
  have hmem : ∀ value, (height, value) ∈ cache.blocks.rows ↔
      (low ≤ height ∧ height ≤ tip) ∧ value = Prost.encode (block height) := by
    intro value
    rw [h.rows, blocksFrom, List.map_map, List.mem_map]
    constructor
    · rintro ⟨n, hn, heq⟩
      obtain ⟨hlow, hlt⟩ := List.mem_range'_1.mp hn
      obtain ⟨hheight, hvalue⟩ := Prod.mk.inj heq
      rw [hsegment.height n hlow (by omega)] at hheight
      subst hheight
      exact ⟨⟨hlow, by omega⟩, hvalue.symm⟩
    · rintro ⟨⟨hlow, htip⟩, rfl⟩
      refine ⟨height, List.mem_range'_1.mpr ⟨hlow, by omega⟩, ?_⟩
      simp [Cache.rowOf, hsegment.height height hlow (by omega)]
  by_cases hin : low ≤ height ∧ height ≤ tip
  · rw [if_pos hin, Table.get_eq_some_iff, hmem]
    exact ⟨hin, rfl⟩
  · rw [if_neg hin, Table.get_eq_none_iff]
    intro value hvalue
    exact hin ((hmem value).mp hvalue).1

theorem Holds.appended (h : Holds block low tip cache) {more : Nat}
    (happ : Cache.Appended cache (blocksFrom block (tip + 1) more) none (tip + 1) cache') :
    Holds block low (tip + more) cache' := by
  have hle := h.le
  refine ⟨by omega, ?_, ?_⟩
  · have hjoin := blocksFrom_append block low (tip + 1 - low) more
    rw [show low + (tip + 1 - low) = tip + 1 by omega,
      show tip + 1 - low + more = tip + more + 1 - low by omega] at hjoin
    rw [happ.rows, h.rows, ← List.map_append, hjoin]
  · have hmeta : cache'.metaRows = cache.metaRows := happ.metaRows
    rw [Cache.snapshotBaseHeight, hmeta]
    exact h.base

private theorem holds_of_appended_empty {count : Nat}
    (happ : Cache.Appended Cache.empty (blocksFrom block low (count + 1)) (some low) low cache')
    (hbelow : low ≤ u64Max) : Holds block low (low + count) cache' := by
  refine ⟨by omega, ?_, ?_⟩
  · rw [happ.rows, show low + count + 1 - low = count + 1 by omega]
    rfl
  · have hmeta : cache'.metaRows
        = Cache.empty.metaRows.insert snapshotBaseHeightKey (leBytes 8 low) := happ.metaRows
    rw [Cache.snapshotBaseHeight, hmeta, Table.get_insert, if_pos rfl,
      Cache.decodeBaseHeight_leBytes hbelow]

theorem Holds.append_run (h : Holds block low tip cache) (hsegment : ChainSegment block low high)
    (more : Nat) (hmore : 0 < more) (hhigh : tip + more ≤ high) :
    ∃ cache', cache.append ((blocksFrom block (tip + 1) more).map .ok) none = (cache', .ok ()) ∧
      Holds block low (tip + more) cache' := by
  have hle := h.le
  have hheights : (blocksFrom block (tip + 1) more).map (·.height) = List.range' (tip + 1) more :=
    hsegment.heights (by omega) (by omega)
  have hne : blocksFrom block (tip + 1) more ≠ [] := by
    rw [← List.length_pos_iff_ne_nil, blocksFrom_length]
    exact hmore
  have hjoin : ∀ row, cache.blocks.last = some row → tip + 1 = row.1 + 1 := by
    intro row hrow
    rw [h.last] at hrow
    obtain rfl := Option.some.inj hrow
    rw [Cache.rowOf, hsegment.height tip hle (by omega)]
  obtain ⟨cache', happend, happ⟩ := Cache.append_run hne
    (by rw [blocksFrom_length]; exact hheights) hjoin (hsegment.blocks_below hheights (by omega))
  exact ⟨cache', happend, h.appended happ⟩

private theorem append_run_empty (hsegment : ChainSegment block low high) (count : Nat)
    (hhigh : low + count ≤ high) :
    ∃ cache', Cache.empty.append ((blocksFrom block low (count + 1)).map .ok) (some low)
        = (cache', .ok ()) ∧ Holds block low (low + count) cache' := by
  have hheights : (blocksFrom block low (count + 1)).map (·.height) = List.range' low (count + 1) :=
    hsegment.heights (Nat.le_refl low) (by omega)
  have hne : blocksFrom block low (count + 1) ≠ [] := by
    rw [← List.length_pos_iff_ne_nil, blocksFrom_length]
    omega
  have hjoin : ∀ row, Cache.empty.blocks.last = some row → low = row.1 + 1 := by
    intro row hrow
    cases hrow
  obtain ⟨cache', happend, happ⟩ := Cache.append_run hne
    (by rw [blocksFrom_length]; exact hheights) hjoin (hsegment.blocks_below hheights (by omega))
  have hbelow := hsegment.below
  exact ⟨cache', happend, holds_of_appended_empty happ (by omega)⟩

end

/-! ### One epoch -/

/-- The height an import goes on from. -/
def nextHeight (tip : Option Nat) (entry : EpochEntry) : Nat :=
  match tip with
  | some height => height + 1
  | none => entry.start

variable {cache : Cache} {tip : Option Nat} (hsegment : ChainSegment block low high)
  (hlow : low ≤ entry.start) (hhigh : entry.stop ≤ high)
  (hholds : HoldsUpTo block low tip cache) (hfirst : tip = none → entry.start = low)
  (hnext : entry.start ≤ nextHeight tip entry) (hstop : nextHeight tip entry ≤ entry.stop)

include hsegment hlow hhigh hholds hfirst hnext hstop

omit hlow in
theorem ServedRows.appendEpoch (h : ServedRows chain block entry rows) :
    ∃ cache', Lightwalletd.appendEpoch cache tip (nextHeight tip entry) entry (rows.map (·.2))
        = (cache', .landed) ∧ Holds block low entry.stop cache' := by
  have hdecode : ((rows.map (·.2)).drop (nextHeight tip entry - entry.start)).map Prost.decode
      = (blocksFrom block (nextHeight tip entry) (entry.stop + 1 - nextHeight tip entry)).map
        .ok := by
    rw [List.map_drop, h.decode_eq, ← List.map_drop, blocksFrom_drop,
      show entry.start + (nextHeight tip entry - entry.start) = nextHeight tip entry by omega,
      show entry.stop + 1 - entry.start - (nextHeight tip entry - entry.start)
        = entry.stop + 1 - nextHeight tip entry by omega]
  unfold Lightwalletd.appendEpoch
  rcases tip with _ | t
  · obtain rfl : cache = Cache.empty := hholds
    obtain rfl := hfirst rfl
    obtain ⟨cache', happend, hholds'⟩ :=
      append_run_empty hsegment (entry.stop - entry.start) (by omega)
    have hjunction : ∀ arriving, checkJunction Cache.empty entry.index arriving = .ok () := by
      rintro (_ | record) <;> rfl
    simp only [nextHeight] at hdecode ⊢
    rw [show entry.stop + 1 - entry.start = entry.stop - entry.start + 1 by omega] at hdecode
    simp only [hjunction, Cache.addDecodedBatch, map_decodeBlock hdecode, Option.isNone_none,
      if_true, happend]
    exact ⟨cache', rfl, by rwa [show entry.start + (entry.stop - entry.start) = entry.stop by omega]
      at hholds'⟩
  · have hheld : Holds block low t cache := hholds
    have hle := hheld.le
    simp only [nextHeight] at hdecode hnext hstop ⊢
    obtain ⟨cache', happend, hholds'⟩ :=
      hheld.append_run hsegment (entry.stop - t) (by omega) (by omega)
    rw [show entry.stop + 1 - (t + 1) = entry.stop - t by omega] at hdecode
    have hjunction : checkJunction cache entry.index
        ((rows.map (·.2)).drop (t + 1 - entry.start)).head? = .ok () := by
      rcases hrecords : (rows.map (·.2)).drop (t + 1 - entry.start) with _ | ⟨record, rest⟩
      · rfl
      refine (checkJunction_eq_ok (hheld.stored hsegment (by omega))).mpr ?_
      intro row tipBlock hrow htip
      rw [hheld.last] at hrow
      obtain rfl := Option.some.inj hrow
      rw [Cache.rowOf, Prost.decode_encode] at htip
      obtain rfl := Except.ok.inj htip
      rw [hrecords, show entry.stop - t = entry.stop - t - 1 + 1 by omega, blocksFrom,
        List.range'_succ, List.map_cons, List.map_cons, List.map_cons, List.cons.injEq] at hdecode
      refine ⟨block (t + 1), hdecode.1, ?_, hsegment.linked t hle (by omega)⟩
      rw [Cache.rowOf, hsegment.height t hle (by omega),
        hsegment.height (t + 1) (by omega) (by omega)]
    simp only [hjunction, Cache.addDecodedBatch, map_decodeBlock hdecode, Option.isNone_some,
      Bool.false_eq_true, if_false, happend]
    exact ⟨cache', rfl, by rwa [show t + (entry.stop - t) = entry.stop by omega] at hholds'⟩

/-- **One epoch from an honest peer** lands whole, or changes nothing. -/
theorem importEpoch_honest (hchain : validChain chain = true) (env : ImportEnv)
    (concurrency request : Nat)
    (hserved : ∀ body, env.epoch request entry.index entry.bytes = .ready (.ok body) →
      ServedBody chain block entry body) :
    (∃ result, result ≠ .landed ∧
      importEpoch env cache tip chain concurrency request (nextHeight tip entry) entry
        = (cache, result)) ∨
    ∃ cache', importEpoch env cache tip chain concurrency request (nextHeight tip entry) entry
        = (cache', .landed) ∧ Holds block low entry.stop cache' := by
  unfold importEpoch
  by_cases hbytes : entry.bytes > maxEpochBytes
  · rw [if_pos hbytes]
    exact Or.inl ⟨_, by simp, rfl⟩
  rw [if_neg hbytes]
  rcases hepoch : env.epoch request entry.index entry.bytes with (error | body) | _
  · exact Or.inl ⟨_, by simp, rfl⟩
  · obtain ⟨rows, hrows, rfl⟩ := hserved body hepoch
    simp only [hrows.checkBody hchain hsegment hlow hhigh]
    rcases env.lookup request with lookup | _
    · simp only
      rcases hanchor : verifyAnchor lookup concurrency entry
        ((blocksFrom block entry.start (entry.stop + 1 - entry.start)).map (·.hash)) with error | u
      · exact Or.inl ⟨.failed error, by simp, by simp only [hanchor]⟩
      · simp only [hanchor]
        exact Or.inr (hrows.appendEpoch hsegment hhigh hholds hfirst hnext hstop)
    · exact Or.inl ⟨_, by simp, rfl⟩
  · exact Or.inl ⟨_, by simp, rfl⟩

theorem importEpoch_lands (hchain : validChain chain = true) (env : ImportEnv)
    (concurrency request : Nat) {body : Bytes} {lookup : LookupEnv}
    (hepoch : env.epoch request entry.index entry.bytes = .ready (.ok body))
    (hserved : ServedBody chain block entry body) (hlookup : env.lookup request = .ready lookup)
    (hnode : NodeAgrees block lookup entry.start entry.stop) :
    ∃ cache', importEpoch env cache tip chain concurrency request (nextHeight tip entry) entry
        = (cache', .landed) ∧ Holds block low entry.stop cache' := by
  obtain ⟨rows, hrows, rfl⟩ := hserved
  unfold importEpoch
  rw [if_neg (Nat.not_lt.mpr hrows.limit)]
  simp only [hepoch, hrows.checkBody hchain hsegment hlow hhigh, hlookup,
    hrows.verifyAnchor hnode concurrency]
  exact hrows.appendEpoch hsegment hhigh hholds hfirst hnext hstop

end

/-! ### A whole run -/

section

variable [Prost] [Sha256] {block : Nat → CompactBlock} {chain : String} {low high : Nat}

/-- The heights of an entry lie on the chain. -/
def EntryWithin (low high : Nat) (entry : EpochEntry) : Prop :=
  low ≤ entry.start ∧ entry.start ≤ entry.stop ∧ entry.stop ≤ high

/-- The peer serves the entries honestly, when it serves them at all. -/
def ServesHonestly (env : ImportEnv) (chain : String) (block : Nat → CompactBlock)
    (request : Nat) (entries : List EpochEntry) : Prop :=
  ∀ i entry body, entries[i]? = some entry →
    env.epoch (request + i) entry.index entry.bytes = .ready (.ok body) →
    ServedBody chain block entry body

/-- The peer serves every entry honestly, and the node agrees. -/
def ServesAll (env : ImportEnv) (chain : String) (block : Nat → CompactBlock)
    (request : Nat) (entries : List EpochEntry) : Prop :=
  ∀ i entry, entries[i]? = some entry → ∃ body lookup,
    env.epoch (request + i) entry.index entry.bytes = .ready (.ok body) ∧
    ServedBody chain block entry body ∧ env.lookup (request + i) = .ready lookup ∧
    NodeAgrees block lookup entry.start entry.stop

/-- The tip once every entry has been taken. -/
def finalTip (tip : Option Nat) (entries : List EpochEntry) : Option Nat :=
  entries.foldl (fun tip entry => some (max (tip.getD entry.stop) entry.stop)) tip

omit [Prost] [Sha256] in
/-- What the loop does with an entry, by where the next height lies. -/
theorem entryAction_eq (tip : Option Nat) (nodeTip : Nat) (entry : EpochEntry) :
    entryAction tip nodeTip entry
      = if entry.stop < nextHeight tip entry then .skip
        else if entry.start > nextHeight tip entry then .gap
        else if entry.stop > nodeTip then .stop
        else .take (nextHeight tip entry) := by
  rcases tip with _ | tip <;> rfl

/-- **A run against an honest peer keeps the cache on the chain**, however it ends. -/
theorem importLoop_honest (hchain : validChain chain = true)
    (hsegment : ChainSegment block low high) (env : ImportEnv) (nodeTip concurrency : Nat) :
    ∀ (entries : List EpochEntry) (cache : Cache) (tip : Option Nat) (request : Nat),
      (∀ entry ∈ entries, EntryWithin low high entry) →
      ServesHonestly env chain block request entries →
      HoldsUpTo block low tip cache → (tip = none → ∀ entry ∈ entries.head?, entry.start = low) →
      ∃ tip', HoldsUpTo block low tip'
          (importLoop env chain nodeTip concurrency cache tip request entries).1 ∧
        (tip' = tip ∨ ∃ entry ∈ entries, tip' = some entry.stop) := by
  intro entries
  induction entries with
  | nil =>
      intro cache tip request _ _ hholds _
      exact ⟨tip, hholds, Or.inl rfl⟩
  | cons entry entries ih =>
      intro cache tip request hentries hserves hholds hfirst
      obtain ⟨hlow, hle, hhigh⟩ := hentries entry List.mem_cons_self
      have hrest : ∀ e ∈ entries, EntryWithin low high e :=
        fun e he => hentries e (List.mem_cons_of_mem _ he)
      have hserves' : ServesHonestly env chain block (request + 1) entries := by
        intro i e body hi hbody
        exact hserves (i + 1) e body hi (by rwa [← Nat.add_assoc, Nat.add_right_comm])
      unfold importLoop
      rw [entryAction_eq]
      by_cases hskip : entry.stop < nextHeight tip entry
      · rw [if_pos hskip]
        have hnone : tip = none → ∀ e ∈ entries.head?, e.start = low := by
          -- Nothing is skipped on an empty cache.
          rintro rfl
          exact absurd hskip (Nat.not_lt.mpr hle)
        obtain ⟨tip', hholds', htip'⟩ := ih cache tip (request + 1) hrest hserves' hholds hnone
        refine ⟨tip', hholds', htip'.imp_right ?_⟩
        rintro ⟨e, he, heq⟩
        exact ⟨e, List.mem_cons_of_mem _ he, heq⟩
      rw [if_neg hskip]
      by_cases hgap : entry.start > nextHeight tip entry
      · rw [if_pos hgap]
        exact ⟨tip, hholds, Or.inl rfl⟩
      rw [if_neg hgap]
      by_cases hnode : entry.stop > nodeTip
      · rw [if_pos hnode]
        exact ⟨tip, hholds, Or.inl rfl⟩
      rw [if_neg hnode]
      have hserved : ∀ body, env.epoch request entry.index entry.bytes = .ready (.ok body) →
          ServedBody chain block entry body := fun body hbody => hserves 0 entry body rfl hbody
      rcases importEpoch_honest hsegment hlow hhigh hholds
          (fun hnone => hfirst hnone entry rfl) (by omega) (by omega) hchain env concurrency request
          hserved with ⟨result, hne, heq⟩ | ⟨cache', heq, hholds'⟩
      · simp only [heq]
        rcases result with _ | error | _
        · exact absurd rfl hne
        · exact ⟨tip, hholds, Or.inl rfl⟩
        · exact ⟨tip, hholds, Or.inl rfl⟩
      · simp only [heq]
        obtain ⟨tip', hholds'', htip'⟩ :=
          ih cache' (some entry.stop) (request + 1) hrest hserves' hholds' nofun
        refine ⟨tip', hholds'', Or.inr ?_⟩
        rcases htip' with rfl | ⟨e, he, heq⟩
        · exact ⟨entry, List.mem_cons_self, rfl⟩
        · exact ⟨e, List.mem_cons_of_mem _ he, heq⟩

/-- **A run that is answered to its end** takes every entry that is not held yet. -/
theorem importLoop_complete (hchain : validChain chain = true)
    (hsegment : ChainSegment block low high) (env : ImportEnv) {nodeTip : Nat} (concurrency : Nat) :
    ∀ (entries : List EpochEntry) (cache : Cache) (tip : Option Nat) (request : Nat),
      (∀ entry ∈ entries, EntryWithin low high entry) →
      (∀ entry ∈ entries, entry.stop ≤ nodeTip) →
      entries.IsChain (fun a b => b.start = a.stop + 1) →
      ServesAll env chain block request entries →
      HoldsUpTo block low tip cache →
      (∀ entry ∈ entries.head?,
        (tip = none → entry.start = low) ∧ ∀ t, tip = some t → entry.start ≤ t + 1) →
      ∃ cache', importLoop env chain nodeTip concurrency cache tip request entries
          = (cache', .returned (.ok (finalTip tip entries))) ∧
        HoldsUpTo block low (finalTip tip entries) cache' := by
  intro entries
  induction entries with
  | nil =>
      intro cache tip request _ _ _ _ hholds _
      exact ⟨cache, rfl, hholds⟩
  | cons entry entries ih =>
      intro cache tip request hentries hnode hchained hserves hholds hjoin
      obtain ⟨hlow, hle, hhigh⟩ := hentries entry List.mem_cons_self
      obtain ⟨hfirst, hnext⟩ := hjoin entry rfl
      obtain ⟨hadjacent, hchained'⟩ := List.isChain_cons.mp hchained
      have hentries' : ∀ e ∈ entries, EntryWithin low high e :=
        fun e he => hentries e (List.mem_cons_of_mem _ he)
      have hnode' : ∀ e ∈ entries, e.stop ≤ nodeTip :=
        fun e he => hnode e (List.mem_cons_of_mem _ he)
      have hserves' : ServesAll env chain block (request + 1) entries := by
        intro i e hi
        rw [Nat.add_assoc, Nat.add_comm 1 i]
        exact hserves (i + 1) e hi
      unfold importLoop
      rw [entryAction_eq]
      by_cases hskip : entry.stop < nextHeight tip entry
      · rw [if_pos hskip]
        rcases tip with _ | t
        · exact absurd hskip (Nat.not_lt.mpr hle)
        have hlt : entry.stop < t + 1 := hskip
        have hfinal : finalTip (some t) (entry :: entries) = finalTip (some t) entries := by
          rw [finalTip, List.foldl_cons, Option.getD_some, max_eq_left (by omega)]
          rfl
        rw [hfinal]
        refine ih cache (some t) (request + 1) hentries' hnode' hchained' hserves' hholds ?_
        intro e he
        refine ⟨by simp, ?_⟩
        rintro _ ⟨⟩
        have := hadjacent e he
        omega
      rw [if_neg hskip]
      have hstart : entry.start ≤ nextHeight tip entry := by
        rcases tip with _ | t
        · exact Nat.le_refl _
        · exact hnext t rfl
      rw [if_neg (by omega), if_neg (Nat.not_lt.mpr (hnode entry List.mem_cons_self))]
      obtain ⟨body, lookup, hepoch, hserved, hlookup, hagrees⟩ := hserves 0 entry rfl
      obtain ⟨cache', heq, hholds'⟩ := importEpoch_lands hsegment hlow hhigh hholds hfirst hstart
        (by omega) hchain env concurrency request hepoch hserved hlookup hagrees
      have hfinal : finalTip tip (entry :: entries) = finalTip (some entry.stop) entries := by
        rw [finalTip, List.foldl_cons]
        rcases tip with _ | t
        · simp [finalTip]
        · have : t ≤ entry.stop := by
            simp only [nextHeight] at hskip
            omega
          rw [Option.getD_some, max_eq_right this]
          rfl
      simp only [heq]
      rw [hfinal]
      refine ih cache' (some entry.stop) (request + 1) hentries' hnode' hchained'
        hserves' hholds' ?_
      intro e he
      refine ⟨by simp, ?_⟩
      rintro _ ⟨⟩
      exact Nat.le_of_eq (hadjacent e he)

omit [Prost] [Sha256] in
/-- With consecutive entries, the final tip is the last entry's, or what was held above it. -/
theorem finalTip_eq {tip : Option Nat} {entries : List EpochEntry} {last : EpochEntry}
    (hlast : entries.getLast? = some last) (hle : ∀ entry ∈ entries, entry.stop ≤ last.stop) :
    finalTip tip entries = some (max (tip.getD last.stop) last.stop) := by
  -- The entries before the last do not count beside it.
  have hfront : ∀ (front : List EpochEntry) (tip : Option Nat),
      (∀ entry ∈ front, entry.stop ≤ last.stop) →
      max ((finalTip tip front).getD last.stop) last.stop = max (tip.getD last.stop) last.stop := by
    intro front
    induction front with
    | nil =>
        intro tip _
        rfl
    | cons entry front ih =>
        intro tip hle
        have hentry := hle entry List.mem_cons_self
        have hrest := ih (some (max (tip.getD entry.stop) entry.stop))
          fun e he => hle e (List.mem_cons_of_mem _ he)
        rw [finalTip, List.foldl_cons]
        refine hrest.trans ?_
        rcases tip with _ | t
        · simp only [Option.getD_some, Option.getD_none]
          omega
        · simp only [Option.getD_some]
          omega
  obtain ⟨front, rfl⟩ := List.getLast?_eq_some_iff.mp hlast
  rw [finalTip, List.foldl_append]
  show some (max ((finalTip tip front).getD last.stop) last.stop) = _
  rw [hfront front tip fun e he => hle e (List.mem_append_left _ he)]

end

end Lightwalletd
