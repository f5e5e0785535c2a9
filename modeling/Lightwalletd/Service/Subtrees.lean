/-
The completing blocks of subtrees, `completing_block_hashes` of
`src/service/subtrees.rs`.

The node's answers come in one batch after the other; `fired` says which of those calls
the request's deadline gets ahead of.
-/
import Lightwalletd.Lib.Chunks
import Lightwalletd.Node.Client
import Lightwalletd.Service.Framing
import Lightwalletd.StoredHash

namespace Lightwalletd

/-- Reverse wire bytes into display order. -/
def wireToDisplayBytes (bytes : Bytes) : Bytes := bytes.reverse

/-- One note-commitment subtree from `z_getsubtreesbyindex`. -/
structure Subtree where
  root : String
  endHeight : Nat
  deriving Repr, DecidableEq

/-- Heights per batched `getblockhash` request when the cache does not hold a completing
block. -/
def hashLookupBatch : Nat := 1000

/-- Put the node's answer for one height among the hashes. -/
def insertFetched (fetched : Table Nat Bytes) (row : Nat × String) :
    Except Status (Table Nat Bytes) :=
  (decodeHex row.2 "completing block hash").map (fetched.insert row.1)

def fetchBatch (node : HashRpc) (fired : List Nat → Bool) (fetched : Table Nat Bytes)
    (batch : List Nat) : Except Status (Table Nat Bytes) := do
  let answer ← withDeadline (fired batch) "get_subtree_roots" (node.getBlockHashes batch)
  let hashes ← answer.mapError NodeError.toStatus
  Except.ensure (hashes.length = batch.length) ⟨.internal,
    s!"asked the node for {batch.length} block hashes, got {hashes.length}"⟩
  (batch.zip hashes).foldlM insertFetched fetched

/-- The hash at `height`, which the cache holds in protocol order and the node reports
in display order. -/
def resolved (cached fetched : Table Nat Bytes) (height : Nat) : Except Status Bytes :=
  match cached.get height with
  | some hash => .ok (wireToDisplayBytes hash)
  | none =>
      match fetched.get height with
      | some hash => .ok hash
      | none => .error ⟨.internal, s!"no block hash resolved for height {height}"⟩

/-- The hash of the block that completed each subtree, in display order, one entry per
subtree and in the same order they came in. -/
def completingBlockHashes (cache : Cache) (node : HashRpc) (fired : List Nat → Bool)
    (subtrees : List Subtree) : Except Status (List Bytes) := do
  let heights := subtrees.map (·.endHeight)
  let cached ← (cache.hashesAt heights).mapError CacheError.toStatus
  let missing := Table.keySet (heights.filter fun height => (cached.get height).isNone)
  let fetched ← (missing.chunks hashLookupBatch).foldlM (fetchBatch node fired) Table.empty
  heights.mapM (resolved cached fetched)

end Lightwalletd
