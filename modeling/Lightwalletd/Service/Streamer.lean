/-
The block methods as the service answers them, `src/service/blocks.rs` and
`src/service/mod.rs`.

Each method of a pair is the same code under its own name and transform, so each
pair is one definition with the two as parameters.  A range method answers at
once with a refusal or with a stream; the floor is checked against the cache as it
is at that moment, not as the chunks of the stream will find it.
-/
import Lightwalletd.Service.MempoolTx
import Lightwalletd.Service.Plain

namespace Lightwalletd

/-- The pools to keep for a `pool_types` list whose transparent entries are dropped. -/
def Pools.fromPoolTypesDroppingTransparent (poolTypes : List Int) : Pools :=
  .resolve poolTypes false (poolTypes.all (· = poolTypeTransparent))

structure BlockId where
  height : Nat
  hash : Bytes
  deriving Repr, DecidableEq

structure BlockRange where
  start : Option BlockId
  stop : Option BlockId
  poolTypes : List Int
  deriving Repr, DecidableEq

/-- What the block methods read of the service: whether a repair signal is attached,
and the configured ingest floor. -/
structure Streamer where
  repair : Bool
  ingestFloor : Option Nat

/-! ### Single blocks -/

section

variable [Prost] [BlockParser]

/-- Read the compact block at `height` from the cache, falling back to the node on a
miss. -/
def blockAt (cache : Cache) (replies : BlockReplies) (height : Nat) :
    Except Status CompactBlock := do
  match ← (cache.get height).mapError CacheError.toStatus with
  | some block => return block
  | none => (compactBlock replies height).mapError (blockFetchToStatus · height)

/-- A method that serves one block, by its height. -/
def serveBlock (method : String) (transform : CompactBlock → CompactBlock) (cache : Cache)
    (replies : Nat → BlockReplies) (blockId : BlockId) : Except Status CompactBlock := do
  Except.ensure (¬(blockId.height = 0 ∧ blockId.hash = []))
    ⟨.invalidArgument, s!"{method}: request for unspecified identifier"⟩
  Except.ensure (blockId.hash = []) ⟨.unimplemented, s!"{method} by hash is not yet supported"⟩
  (blockAt cache (replies blockId.height) blockId.height).map transform

def getBlock : Cache → (Nat → BlockReplies) → BlockId → Except Status CompactBlock :=
  serveBlock "get_block" id

def getBlockNullifiers : Cache → (Nat → BlockReplies) → BlockId → Except Status CompactBlock :=
  serveBlock "get_block_nullifiers" nullifiersOnly

end

/-! ### Ranges -/

/-- Refuse a range that reaches below the lowest height this instance serves: the
cache's own base once it holds anything, and the configured floor until then. -/
def checkIngestFloor (streamer : Streamer) (cache : Except CacheError Cache) (method : String)
    (low : Nat) : Except Status Unit :=
  match streamer.ingestFloor with
  | none => .ok ()
  | some configured => do
      let cache ← cache.mapError CacheError.toStatus
      let floor := (cache.range.map (·.1)).getD configured
      Except.ensure (floor ≤ low) ⟨.outOfRange,
        s!"{method}: height {low} is below {floor}, the lowest block this server holds"⟩

/-- The checks of a range method, in order: the bounds of the range it accepts. -/
def checkRange (streamer : Streamer) (cache : Except CacheError Cache) (method : String)
    (range : BlockRange) : Except Status (Nat × Nat) := do
  validatePoolTypes range.poolTypes
  match range.start, range.stop with
  | some start, some stop => do
      validateBlockRange start.height stop.height
      checkIngestFloor streamer cache method (min start.height stop.height)
      return (start.height, stop.height)
  | _, _ => .error ⟨.invalidArgument, s!"{method}: must specify start and end heights"⟩

/-- A method that serves a range: a refusal, or the stream. -/
def serveRange [Prost] [BlockParser] (method : String)
    (transform : List Int → RangeTransform) (streamer : Streamer)
    (cache : Except CacheError Cache) (env : RangeEnv) (range : BlockRange) (fuel : Nat) :
    Except Status (Option (List (Except Status CompactBlock))) := do
  let (start, stop) ← checkRange streamer cache method range
  return blockRangeStream env streamer.repair start stop (transform range.poolTypes) fuel

def getBlockRange [Prost] [BlockParser] : Streamer → Except CacheError Cache → RangeEnv →
    BlockRange → Nat → Except Status (Option (List (Except Status CompactBlock))) :=
  serveRange "get_block_range" fun poolTypes => .pools (.fromPoolTypes poolTypes)

def getBlockRangeNullifiers [Prost] [BlockParser] : Streamer → Except CacheError Cache →
    RangeEnv → BlockRange → Nat → Except Status (Option (List (Except Status CompactBlock))) :=
  serveRange "get_block_range_nullifiers" fun poolTypes =>
    .nullifiers (.fromPoolTypesDroppingTransparent poolTypes)

end Lightwalletd
