/-
Reading a snapshot out of a live cache, `src/snapshot/export.rs`: the manifest, the
epoch bodies, and the maintenance of the digests both are built from.

`storeNextEpochDigest` is one unit of maintenance with the cache to itself.  In the
running program it is a series of transactions, between any two of which the
ingestor may write: `WalkPhase` is the same walk cut at the transactions, one
constructor for what it has learned before each.
-/
import Lightwalletd.Cache

namespace Lightwalletd

/-! ### Writing an epoch body -/

section

variable {σ : Type} (onBlock : σ → Nat → Bytes → Except SnapshotError σ)

/-- The visitor of `writeBody` over the rows of an epoch: one record each, and
`onBlock`. -/
def writeRecords : Bytes → σ → List (Nat × Bytes) → Except SnapshotError (Bytes × σ)
  | out, state, [] => .ok (out, state)
  | out, state, (height, raw) :: rest => do
      let out ← writeRecord out raw
      let state ← onBlock state height raw
      writeRecords out state rest

/-- How many blocks `[start, stop]` has, as a `u32`. -/
def bodyCount (start stop : Nat) : Except SnapshotError Nat :=
  if start ≤ stop ∧ stop - start + 1 ≤ u64Max ∧ stop - start + 1 < 2 ^ 32 then
    .ok (stop - start + 1)
  else .error (.malformed s!"epoch bounds [{start}, {stop}]")

/-- Write an epoch header and the records for `[start, stop]`, calling `onBlock` with
each block's stored bytes on the way. -/
def writeBody (cache : Cache) (chain : String) (start stop : Nat) (out : Bytes) (state : σ) :
    Except SnapshotError (Bytes × σ) := do
  let count ← bodyCount start stop
  let out ← writeHeader out chain start count
  let rows := cache.blocks.range start stop
  let written ← writeRecords onBlock out state rows
  Except.ensure (rows.length = count)
    (.malformed s!"epoch [{start}, {stop}] holds {rows.length} of {count} blocks")
  return written

end

/-- Stream one published epoch's body. -/
def writeEpoch (cache : Cache) (chain : String) (index : Nat) : Except SnapshotError Bytes :=
  match cache.epochDigest index with
  | none => .error (.unknownEpoch index)
  | some row =>
      match EpochDigest.decode row with
      | none => .error (.malformedDigest index)
      | some digest =>
          (writeBody (fun _ _ _ => .ok ()) cache chain digest.start digest.stop [] ()).map (·.1)

/-- Build the manifest for everything this cache can currently serve. -/
def manifest (cache : Cache) (chain : String) : Except SnapshotError Manifest := do
  let (baseHeight, tipHeight) := cache.range.getD (0, 0)
  let epochs ← cache.epochDigests.mapM fun (index, row) =>
    match EpochDigest.decode row with
    | some digest => .ok (digest.entry index)
    | none => .error (.malformedDigest index)
  return {
    formatVersion := formatVersion
    chain := chain
    epochSize := epochSize
    baseHeight := baseHeight
    tipHeight := tipHeight
    epochs := epochs }

/-! ### Computing digests -/

/-- Fold one stored block into the anchor, if it decodes under its own height. -/
def anchorBlock [Prost] (folded : Bytes) (height : Nat) (raw : Bytes) :
    Except SnapshotError Bytes := do
  let block ← (Cache.decodeBlock raw).mapError .cache
  Except.ensure (block.height = height) (.cache (.corruption height
    s!"block.height {block.height} does not match key {height}"))
  return anchorUpdate folded height block.hash

/-- The digests of `[start, stop]`: the body is written into a hashing sink. -/
def digestBody [Prost] [Sha256] (cache : Cache) (chain : String) (start stop : Nat) :
    Except SnapshotError EpochDigest := do
  let (content, anchor) ← writeBody anchorBlock cache chain start stop [] []
  return {
    start := start
    stop := stop
    bytes := (digestWriterFinish content).2
    content := (digestWriterFinish content).1
    anchor := anchorFinish anchor }

/-- The heights `index` covers in this cache, or `none` if the epoch is not both fully
cached and immutable. -/
def completeEpochBounds (cache : Cache) (index : Nat) : Option (Nat × Nat) :=
  match cache.range with
  | none => none
  | some (base, tip) =>
      let start := max (epochFirstHeight index) base
      let stop := epochLastHeight index
      if start > stop ∨ stop ≥ tip then none else some (start, stop)

/-- Compute an epoch's digests from the cache, or `none` if it is not one this cache
can publish. -/
def computeEpochDigest [Prost] [Sha256] (cache : Cache) (chain : String) (index : Nat) :
    Except SnapshotError (Option EpochDigest) :=
  match completeEpochBounds cache index with
  | none => .ok none
  | some (start, stop) => (digestBody cache chain start stop).map some

/-! ### The maintenance walk

One epoch at a time, the lowest that is complete and has no digests.
-/

/-- The loop of `nextPendingEpoch`.  The index of an epoch below the tip is itself
below the tip, so as many rounds as the tip is high are enough. -/
def pendingFrom (cache : Cache) (tip : Nat) : Nat → Nat → Option Nat
  | 0, _ => none
  | rounds + 1, index =>
      if epochLastHeight index < tip then
        if (cache.epochDigest index).isNone then some index
        else pendingFrom cache tip rounds (index + 1)
      else none

/-- The lowest complete epoch with no stored digest. -/
def nextPendingEpoch (cache : Cache) : Option Nat :=
  match cache.range with
  | none => none
  | some (base, tip) => pendingFrom cache tip (tip + 1) (epochIndex base)

/-- Whether the cache shrank while an epoch's digests were being computed. -/
def wasTruncated (before after : Option (Nat × Nat)) : Bool :=
  match before, after with
  | some (beforeBase, beforeTip), some (base, tip) => base ≠ beforeBase || tip < beforeTip
  | some _, none => true
  | none, _ => false

/-- Compute and store the digests for the lowest complete epoch that lacks them,
returning which epoch that was, or `none` when there is nothing left to do. -/
def storeNextEpochDigest [Prost] [Sha256] (cache : Cache) (chain : String) :
    Cache × Except SnapshotError (Option Nat) :=
  match nextPendingEpoch cache with
  | none => (cache, .ok none)
  | some index =>
      let rangeBefore := cache.range
      match computeEpochDigest cache chain index with
      | .error error => (cache, .error error)
      | .ok none => (cache, .ok none)
      | .ok (some digest) =>
          if wasTruncated rangeBefore cache.range then (cache, .ok none)
          else
            match cache.setEpochDigest index digest.encode with
            | (cache, .error error) => (cache, .error (.cache error))
            | (cache, .ok ()) => (cache, .ok (some index))

/-! ### The walk, transaction by transaction

The same walk cut where the store is called, so that others can be run in between.
-/

/-- What the walk knows before its next transaction. -/
inductive WalkPhase
  /-- Nothing: the next transaction reads the range. -/
  | idle
  /-- The epochs below `index` have digests, and `index` is complete. -/
  | scanning (tip index : Nat)
  /-- `index` has no digest. -/
  | pending (index : Nat)
  /-- The range before the computation. -/
  | ranged (index : Nat) (before : Option (Nat × Nat))
  /-- The heights of the epoch. -/
  | bounded (index : Nat) (before : Option (Nat × Nat)) (start stop : Nat)
  /-- The digests. -/
  | computed (index : Nat) (before : Option (Nat × Nat)) (digest : EpochDigest)
  /-- The digests, and that the range did not shrink. -/
  | checked (index : Nat) (digest : EpochDigest)
  deriving DecidableEq

namespace WalkPhase

/-- The loop condition of `nextPendingEpoch`. -/
def scan (tip index : Nat) : WalkPhase :=
  if epochLastHeight index < tip then .scanning tip index else .idle

/-- One transaction. -/
def step [Prost] [Sha256] (chain : String) (cache : Cache) : WalkPhase → Cache × WalkPhase
  | .idle =>
      match cache.range with
      | none => (cache, .idle)
      | some (base, tip) => (cache, scan tip (epochIndex base))
  | .scanning tip index =>
      if (cache.epochDigest index).isNone then (cache, .pending index)
      else (cache, scan tip (index + 1))
  | .pending index => (cache, .ranged index cache.range)
  | .ranged index before =>
      match completeEpochBounds cache index with
      | none => (cache, .idle)
      | some (start, stop) => (cache, .bounded index before start stop)
  | .bounded index before start stop =>
      match digestBody cache chain start stop with
      | .error _ => (cache, .idle)
      | .ok digest => (cache, .computed index before digest)
  | .computed index before digest =>
      if wasTruncated before cache.range then (cache, .idle)
      else (cache, .checked index digest)
  | .checked index digest => ((cache.setEpochDigest index digest.encode).1, .idle)

end WalkPhase

end Lightwalletd
