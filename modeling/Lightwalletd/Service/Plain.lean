/-
The range stream with its two bounds as parameters, and the loop without either.

`blockRangeStream` reads the cache in windows of at most `cacheReadChunk` heights and
`cacheReadChunkBytes` bytes.  What they are has no influence on what is served, which
is said of the stream for any two of them, and of a plain loop that has none: it
takes one height after the other, from the cache if it has it and from the node
otherwise.
-/
import Lightwalletd.Service.Blocks

namespace Lightwalletd

/-! ### Any bounds -/

/-- `chunk_from`, for windows of `size` heights. -/
def chunkFromBy (size cursor low high : Nat) (descending : Bool) : Nat × Nat :=
  if descending then (max (cursor - (size - 1)) low, cursor)
  else (cursor, min (satAdd cursor (size - 1)) high)

section

variable [Prost] [BlockParser] (env : RangeEnv) (repair descending : Bool) (size budget : Nat)

/-- The loop of the stream, for windows of `size` heights and `budget` bytes. -/
def rangeLoopBy (low high : Nat) : Nat → Nat → Nat → Option ChainLink → List CompactBlock × Ending
  | 0, _, _, _ => ([], .outOfFuel)
  | fuel + 1, chunk, cursor, link =>
      match env.cacheAt chunk with
      | .error e => ([], .failed ⟨e.toStatus, none⟩)
      | .ok cache =>
          let window := chunkFromBy size cursor low high descending
          let covered := cache.readChunk window.1 window.2 descending budget
          match serveHeights env repair descending chunk
              (coveredHeights descending covered.low covered.high) covered.blocks link with
          | (blocks, .error failure) => (blocks, .failed failure)
          | (blocks, .ok link) =>
              match nextCursor descending low high covered with
              | none => (blocks, .finished)
              | some cursor =>
                  let (rest, ending) := rangeLoopBy low high fuel (chunk + 1) cursor link
                  (blocks ++ rest, ending)

end

/-- The source stream, for windows of `size` heights and `budget` bytes. -/
def rangeSourceBy [Prost] [BlockParser] (size budget : Nat) (env : RangeEnv) (repair : Bool)
    (start stop fuel : Nat) : List CompactBlock × Ending :=
  let descending := decide (start > stop)
  let low := if descending then stop else start
  let high := if descending then start else stop
  rangeLoopBy env repair descending size budget low high fuel 0 (if descending then high else low)
    none

/-- A source, transformed and batched. -/
def streamOf [Prost] (transform : RangeTransform) (source : List CompactBlock × Ending) :
    Option (List (Except Status CompactBlock)) :=
  let yielded := source.1.map fun block => .ok (transform.apply block)
  let encodedLen := fun block => (Prost.encode block).length
  match source.2 with
  | .finished => some (coalesce encodedLen yielded)
  | .failed failure => some (coalesce encodedLen (yielded ++ [.error failure.status]))
  | .outOfFuel => none

/-- The failure a stream ended in. -/
def Ending.failure : Ending → Option Failure
  | .failed failure => some failure
  | _ => none

/-- What a client receives of a source: its blocks, and the status of its failure. -/
def itemsOf (transform : RangeTransform) (source : List CompactBlock × Ending) :
    List (Except Status CompactBlock) :=
  (source.1.map fun block => .ok (transform.apply block))
    ++ (source.2.failure.map fun failure => .error failure.status).toList

/-- The bounds of the source are two of these. -/
theorem rangeLoop_eq_by [Prost] [BlockParser] (env : RangeEnv) (repair descending : Bool)
    (low high fuel chunk cursor : Nat) (link : Option ChainLink) :
    rangeLoop env repair descending low high fuel chunk cursor link
      = rangeLoopBy env repair descending cacheReadChunk cacheReadChunkBytes low high fuel chunk
          cursor link := by
  induction fuel generalizing chunk cursor link with
  | zero => rfl
  | succ fuel ih =>
      simp only [rangeLoop, rangeLoopBy, ih]
      rfl

theorem blockRangeStream_eq_by [Prost] [BlockParser] (env : RangeEnv) (repair : Bool)
    (start stop : Nat) (transform : RangeTransform) (fuel : Nat) :
    blockRangeStream env repair start stop transform fuel = streamOf transform
      (rangeSourceBy cacheReadChunk cacheReadChunkBytes env repair start stop fuel) := by
  unfold blockRangeStream rangeSource rangeSourceBy
  simp only [rangeLoop_eq_by]
  rfl

/-! ### No bounds -/

/-- A cache and a node that stay as they are. -/
def fixedEnv (cache : Cache) (replies : Nat → BlockReplies) : RangeEnv where
  cacheAt _ := .ok cache
  replies _ height := replies height

section

variable [Prost] [BlockParser] (cache : Cache) (replies : Nat → BlockReplies)
  (repair descending : Bool)

/-- One height: the stored block if the cache has it, else the node's. -/
def plainHeight (height : Nat) : Except Failure (CompactBlock × BlockSource) :=
  match cache.blocks.get height with
  | some bytes =>
      match Cache.decodeBlock bytes with
      | .ok block => .ok (block, .cache)
      | .error e => .error ⟨e.toStatus, none⟩
  | none =>
      match compactBlock (replies height) height with
      | .ok block => .ok (block, .node)
      | .error e => .error ⟨blockFetchToStatus e height, none⟩

/-- One height after the other, each checked against the one before: the blocks, and
the link they leave or the failure they end in. -/
def plainLoop : List Nat → Option ChainLink → List CompactBlock × Except Failure (Option ChainLink)
  | [], link => ([], .ok link)
  | height :: heights, link =>
      match plainHeight cache replies height with
      | .error failure => ([], .error failure)
      | .ok (block, source) =>
          let checked := match link with
            | some previous => previous.check block height descending source repair
            | none => .ok ()
          match checked with
          | .error failure => ([], .error failure)
          | .ok () =>
              let (blocks, result) := plainLoop heights
                (some (ChainLink.after height block descending source))
              (block :: blocks, result)

/-- How a loop that is done ended. -/
def endingOf : Except Failure (Option ChainLink) → Ending
  | .ok _ => .finished
  | .error failure => .failed failure

/-- The heights `start`, one further at a time, to `stop`, by the plain loop. -/
def plainRange (start stop : Nat) : List CompactBlock × Ending :=
  let heights := (List.range (max start stop - min start stop + 1)).map fun i =>
    if start ≤ stop then start + i else start - i
  let (blocks, result) := plainLoop cache replies repair (decide (start > stop)) heights none
  (blocks, endingOf result)

end

end Lightwalletd
