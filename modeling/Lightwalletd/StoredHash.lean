/-
Reading a stored block down to its hash, `StoredBlockHash` and `hashes_at` of
`src/cache.rs`.
-/
import Lightwalletd.Cache
import Lightwalletd.Lib.Protobuf

namespace Lightwalletd

/-- A stored `CompactBlock` read down to its `hash` field. -/
structure StoredBlockHash where
  hash : Bytes
  deriving Repr, DecidableEq

namespace StoredBlockHash

/-- The tag of `CompactBlock.hash`. -/
def hashTag : Nat := 3

/-- `StoredBlockHash::decode`: the one field it declares, all others skipped. -/
def decode (bytes : Bytes) : Except DecodeError StoredBlockHash :=
  match Protobuf.findBytes hashTag bytes.length [] bytes with
  | .ok hash => .ok ⟨hash⟩
  | .error description => .error ⟨description⟩

end StoredBlockHash

/-- Put the hash of the block at `height` among `hashes`, if it is cached. -/
def Cache.insertHash (cache : Cache) (hashes : Table Nat Bytes) (height : Nat) :
    Except CacheError (Table Nat Bytes) :=
  match cache.blocks.get height with
  | some bytes =>
      ((StoredBlockHash.decode bytes).mapError .decode).map fun stored =>
        hashes.insert height stored.hash
  | none => .ok hashes

/-- The hashes of the cached blocks at `heights`, keyed by height.  A height the cache
does not hold is absent from the result. -/
def Cache.hashesAt (cache : Cache) (heights : List Nat) : Except CacheError (Table Nat Bytes) :=
  heights.foldlM cache.insertHash Table.empty

end Lightwalletd
