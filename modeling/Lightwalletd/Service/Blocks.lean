/-
Serving a range of blocks, `src/service/blocks.rs`.

`blockRangeStream` resolves a range height by height, from the cache in chunks and
from the node where the cache has nothing, and checks every block against the
previous one whichever side it came from.

The cache and the node move while a stream is open.  `RangeEnv` is what one
stream gets to see of them: the cache as each chunk's read transaction finds it,
and the answers to each fetch, both indexed by the number of the chunk.  Nothing
ties the views of two chunks together.

The source loops until the range is served; here the loop has fuel, and
`Proofs/BlockRange.lean` shows how much always suffices.
-/
import Lightwalletd.Cache
import Lightwalletd.Filter
import Lightwalletd.Service.Framing

namespace Lightwalletd

/-- Maximum number of blocks a single range request may span. -/
def maxBlockRange : Nat := 10000

/-- Validate an extracted block range: both bounds non-zero, and a bounded span. -/
def validateBlockRange (start stop : Nat) : Except Status Unit :=
  if start = 0 ∨ stop = 0 then
    .error ⟨.invalidArgument,
      "get_block_range: start and end heights must be specified (non-zero)"⟩
  else
    let span := (max start stop - min start stop) + 1
    if span > maxBlockRange then
      .error ⟨.invalidArgument,
        s!"get_block_range: requested {span} blocks exceeds the maximum of {maxBlockRange}"⟩
    else .ok ()

/-- Most consecutive heights read from the cache under one read transaction. -/
def cacheReadChunk : Nat := 64

/-- Most stored block bytes one cache read holds. -/
def cacheReadChunkBytes : Nat := 512 * 1024

/-- Where a block in the stream came from. -/
inductive BlockSource
  | cache
  | node
  deriving Repr, DecidableEq

/-- What the next block in the stream must hash to, and the height that
established it. -/
structure ChainLink where
  height : Nat
  expectedHash : Bytes
  source : BlockSource

/-- The link `block` establishes for whatever follows it in this direction. -/
def ChainLink.after (height : Nat) (block : CompactBlock) (descending : Bool)
    (source : BlockSource) : ChainLink where
  height := height
  expectedHash := if descending then block.prevHash else block.hash
  source := source

/-- How a stream fails: the status, and the height reported for repair, if any. -/
structure Failure where
  status : Status
  reported : Option Nat

/-- Check that `block` connects to this link, reporting the suspect height for
repair if it does not, the cache is implicated and a signal is attached. -/
def ChainLink.check (link : ChainLink) (block : CompactBlock) (height : Nat)
    (descending : Bool) (source : BlockSource) (repair : Bool) : Except Failure Unit :=
  let actualHash := if descending then block.hash else block.prevHash
  if actualHash = link.expectedHash then .ok ()
  else
    let suspectHeight := min height link.height
    let cacheImplicated := link.source = .cache ∨ source = .cache
    .error {
      status := ⟨.aborted,
        s!"get_block_range: chain discontinuity at height {height}; the chain reorged while serving, retry"⟩
      reported := if cacheImplicated ∧ repair then some suspectHeight else none }

/-- The next window of `[low, high]` to ask the cache for, starting at `cursor`. -/
def chunkFrom (cursor low high : Nat) (descending : Bool) : Nat × Nat :=
  if descending then (max (cursor - (cacheReadChunk - 1)) low, cursor)
  else (cursor, min (satAdd cursor (cacheReadChunk - 1)) high)

/-- What one open stream sees: the cache under the read transaction of each chunk,
and the node's answers to each fetch. -/
structure RangeEnv where
  cacheAt : Nat → Except CacheError Cache
  replies : Nat → Nat → BlockReplies

/-- The transform a range method applies before yielding a block. -/
inductive RangeTransform
  | pools (pools : Pools)
  | nullifiers (pools : Pools)

def RangeTransform.apply : RangeTransform → CompactBlock → CompactBlock
  | pools p, block => filterBlockToPools block p
  | nullifiers p, block => filterBlockToPoolsNullifiersOnly block p

/-- How a source stream ended. -/
inductive Ending
  | finished
  | failed (failure : Failure)
  | outOfFuel

section

variable [Prost] [BlockParser] (env : RangeEnv) (repair descending : Bool)

/-- Resolve one height: from the chunk's rows, or from the node.  The row is taken
out of the chunk. -/
def resolveHeight (chunk height : Nat) (cached : Table Nat Bytes) :
    Except Failure (CompactBlock × BlockSource × Table Nat Bytes) :=
  match cached.get height with
  | some bytes =>
      match Cache.decodeBlock bytes with
      | .ok block => .ok (block, .cache, cached.retain fun h _ => h ≠ height)
      | .error e => .error ⟨e.toStatus, none⟩
  | none =>
      match compactBlock (env.replies chunk height) height with
      | .ok block => .ok (block, .node, cached)
      | .error e => .error ⟨blockFetchToStatus e height, none⟩

/-- Serve the heights of one chunk in order: the blocks yielded, and the link they
leave behind or the failure they end in. -/
def serveHeights (chunk : Nat) :
    List Nat → Table Nat Bytes → Option ChainLink →
      List CompactBlock × Except Failure (Option ChainLink)
  | [], _, link => ([], .ok link)
  | height :: heights, cached, link =>
      match resolveHeight env chunk height cached with
      | .error failure => ([], .error failure)
      | .ok (block, source, cached) =>
          let checked := match link with
            | some previous => previous.check block height descending source repair
            | none => .ok ()
          match checked with
          | .error failure => ([], .error failure)
          | .ok () =>
              let (blocks, result) := serveHeights chunk heights cached
                (some (ChainLink.after height block descending source))
              (block :: blocks, result)

/-- The heights a chunk covers, in the order they are served. -/
def coveredHeights (low high : Nat) : List Nat :=
  let heights := List.range' low (high + 1 - low)
  if descending then heights.reverse else heights

/-- Where the loop goes on after a chunk, or `none` if that was the last one. -/
def nextCursor (low high : Nat) (covered : Cache.CachedChunk) : Option Nat :=
  if descending then (if covered.low ≤ low then none else some (covered.low - 1))
  else (if covered.high ≥ high then none else some (covered.high + 1))

/-- The loop of the stream: one chunk after the other from `cursor` on. -/
def rangeLoop (low high : Nat) : Nat → Nat → Nat → Option ChainLink → List CompactBlock × Ending
  | 0, _, _, _ => ([], .outOfFuel)
  | fuel + 1, chunk, cursor, link =>
      match env.cacheAt chunk with
      | .error e => ([], .failed ⟨e.toStatus, none⟩)
      | .ok cache =>
          let window := chunkFrom cursor low high descending
          let covered := cache.readChunk window.1 window.2 descending cacheReadChunkBytes
          match serveHeights env repair descending chunk
              (coveredHeights descending covered.low covered.high) covered.blocks link with
          | (blocks, .error failure) => (blocks, .failed failure)
          | (blocks, .ok link) =>
              match nextCursor descending low high covered with
              | none => (blocks, .finished)
              | some cursor =>
                  let (rest, ending) := rangeLoop low high fuel (chunk + 1) cursor link
                  (blocks ++ rest, ending)

end

/-- The source stream before batching: the blocks it yields and how it ends. -/
def rangeSource [Prost] [BlockParser] (env : RangeEnv) (repair : Bool) (start stop fuel : Nat) :
    List CompactBlock × Ending :=
  let descending := decide (start > stop)
  let low := if descending then stop else start
  let high := if descending then start else stop
  rangeLoop env repair descending low high fuel 0 (if descending then high else low) none

/-- Stream the blocks of a range, transformed and batched; `none` if the fuel ran
out before the stream ended. -/
def blockRangeStream [Prost] [BlockParser] (env : RangeEnv) (repair : Bool) (start stop : Nat)
    (transform : RangeTransform) (fuel : Nat) : Option (List (Except Status CompactBlock)) :=
  let (blocks, ending) := rangeSource env repair start stop fuel
  let yielded := blocks.map fun block => .ok (transform.apply block)
  let encodedLen := fun block => (Prost.encode block).length
  match ending with
  | .finished => some (coalesce encodedLen yielded)
  | .failed failure => some (coalesce encodedLen (yielded ++ [.error failure.status]))
  | .outOfFuel => none

end Lightwalletd
