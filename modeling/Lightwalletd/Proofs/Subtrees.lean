/-
The completing blocks of subtrees, found one by one.

The hashes the cache does not hold are looked up sorted, once each and in batches, and
that is as good as looking them up where they are needed: what is left of the batches
is a table that holds the node's answer for each height, or no table at all if some
height has no answer.
-/
import Lightwalletd.Proofs.StoredHash
import Lightwalletd.Service.Subtrees

namespace Lightwalletd

/-- The node answers each height of a batch as it answers the height alone. -/
def HashRpc.AnswersEach (node : HashRpc) : Prop :=
  ∀ heights, (node.getBlockHashes heights).toOption
    = (defaultBlockHashes node.getBlockHash heights).toOption

/-- The completing block's hash of one subtree: the cached block's, or else the node's
answer for its height. -/
def completingBlockHash (cache : Cache) (node : HashRpc) (subtree : Subtree) :
    Except Status Bytes := do
  match ← (cache.get subtree.endHeight).mapError CacheError.toStatus with
  | some block => return wireToDisplayBytes block.hash
  | none => do
      let hash ← (node.getBlockHash subtree.endHeight).mapError NodeError.toStatus
      decodeHex hash "completing block hash"

/-- The node's decoded answer for a height. -/
def HashRpc.hashAt (node : HashRpc) (height : Nat) : Option Bytes :=
  (node.getBlockHash height).toOption.bind fun hash => (hexDecode hash).toOption

section

variable {node : HashRpc} {fired : List Nat → Bool}

/-! ### One batch

A batched lookup is compared with lookups one by one, up to the error it ends with.
-/

private theorem insertFetched_toOption (fetched : Table Nat Bytes) (height : Nat) (hash : String) :
    (insertFetched fetched (height, hash)).toOption
      = (hexDecode hash).toOption.map (fetched.insert height) := by
  unfold insertFetched decodeHex
  rcases hexDecode hash with error | bytes <;> rfl

private theorem insertFetched_foldlM {batch : List Nat} {hashes : List String}
    (h : List.Forall₂ (fun height hash => node.getBlockHash height = .ok hash) batch hashes)
    (fetched : Table Nat Bytes) :
    ((batch.zip hashes).foldlM insertFetched fetched).toOption
      = batch.foldlM (Table.fill node.hashAt) fetched := by
  rw [Except.toOption_foldlM]
  induction h generalizing fetched with
  | nil => rfl
  | @cons height hash batch hashes hhash _ ih =>
      rw [List.zip_cons_cons, List.foldlM_cons, List.foldlM_cons, insertFetched_toOption]
      have hat : Table.fill node.hashAt fetched height
          = (hexDecode hash).toOption.map (fetched.insert height) := by
        rw [Table.fill, HashRpc.hashAt, hhash]
        rfl
      rw [hat]
      exact Option.bind_congr fun next _ => ih next

private theorem fetchBatch_toOption (hnode : node.AnswersEach)
    (hfired : ∀ batch, fired batch = false)
    (fetched : Table Nat Bytes) (batch : List Nat) :
    (fetchBatch node fired fetched batch).toOption
      = batch.foldlM (Table.fill node.hashAt) fetched := by
  have hrun : fetchBatch node fired fetched batch
      = ((node.getBlockHashes batch).mapError NodeError.toStatus >>= fun hashes =>
        Except.ensure (hashes.length = batch.length) ⟨.internal,
          s!"asked the node for {batch.length} block hashes, got {hashes.length}"⟩ >>= fun _ =>
        (batch.zip hashes).foldlM insertFetched fetched) := by
    unfold fetchBatch withDeadline
    rw [hfired batch]
    rfl
  rw [hrun]
  have hiff := Except.toOption_congr_iff (hnode batch)
  rcases hanswer : node.getBlockHashes batch with error | hashes
  · -- Some height of the batch has no answer, so the batch is not filled either.
    rcases hfill : batch.foldlM (Table.fill node.hashAt) fetched with _ | final
    · rfl
    · obtain ⟨hall, -⟩ := Table.foldlM_fill hfill
      obtain ⟨hashes, hok, -⟩ := Except.mapM_forall₂ (f := node.getBlockHash)
        (P := fun _ _ => True) (l := batch) fun height hheight => by
          obtain ⟨bytes, hbytes⟩ := Option.isSome_iff_exists.mp (hall height hheight)
          obtain ⟨hash, hhash, -⟩ := Option.bind_eq_some_iff.mp hbytes
          exact ⟨hash, Except.toOption_eq_some.mp hhash, trivial⟩
      exact absurd (hanswer.symm.trans ((hiff hashes).mpr hok)) nofun
  · have hall := Except.mapM_eq_ok.mp ((hiff hashes).mp hanswer)
    show (Except.ensure _ _ >>= fun _ =>
      (batch.zip hashes).foldlM insertFetched fetched).toOption = _
    rw [Except.ensure_pos hall.length_eq.symm, Except.ok_bind]
    exact insertFetched_foldlM hall fetched

private theorem fetchBatches_toOption (hnode : node.AnswersEach)
    (hfired : ∀ batch, fired batch = false)
    (missing : List Nat) :
    ((missing.chunks hashLookupBatch).foldlM (fetchBatch node fired) Table.empty).toOption
      = missing.foldlM (Table.fill node.hashAt) Table.empty := by
  rw [Except.toOption_foldlM]
  simp only [fetchBatch_toOption hnode hfired]
  rw [List.foldlM_flatten, List.flatten_chunks (by decide)]

end

/-! ### All subtrees -/

theorem completingBlockHash_eq_ok {cache : Cache} {node : HashRpc} {stored : Option CompactBlock}
    {subtree : Subtree} (hget : cache.get subtree.endHeight = .ok stored) (hash : Bytes) :
    completingBlockHash cache node subtree = .ok hash ↔
      match stored.map (·.hash) with
      | some wire => wireToDisplayBytes wire = hash
      | none => node.hashAt subtree.endHeight = some hash := by
  unfold completingBlockHash
  rw [hget]
  rcases stored with _ | block
  · show ((node.getBlockHash subtree.endHeight).mapError NodeError.toStatus >>= fun hash =>
      decodeHex hash "completing block hash") = .ok hash ↔ _
    unfold HashRpc.hashAt decodeHex
    simp only [Except.bind_eq_ok, Except.mapError_eq_ok, Option.map_none, Option.bind_eq_some_iff,
      Except.toOption_eq_some]
  · exact Except.pure_eq_ok

/-- The procedure succeeds if every batch does and every height is resolved. -/
theorem completingBlockHashes_eq_ok {cache : Cache} {node : HashRpc} {fired : List Nat → Bool}
    {subtrees : List Subtree} {cached : Table Nat Bytes}
    (hcached : cache.hashesAt (subtrees.map (·.endHeight)) = .ok cached) (hnode : node.AnswersEach)
    (hfired : ∀ batch, fired batch = false) (hashes : List Bytes) :
    completingBlockHashes cache node fired subtrees = .ok hashes ↔
      ∃ fetched, (Table.keySet ((subtrees.map (·.endHeight)).filter fun height =>
          (cached.get height).isNone)).foldlM (Table.fill node.hashAt) Table.empty = some fetched ∧
        List.Forall₂ (fun subtree hash => resolved cached fetched subtree.endHeight = .ok hash)
          subtrees hashes := by
  have hrun : completingBlockHashes cache node fired subtrees
      = (((Table.keySet ((subtrees.map (·.endHeight)).filter fun height =>
          (cached.get height).isNone)).chunks hashLookupBatch).foldlM (fetchBatch node fired)
            Table.empty >>= fun fetched =>
        (subtrees.map (·.endHeight)).mapM (resolved cached fetched)) := by
    simp only [completingBlockHashes, hcached]
    rfl
  rw [hrun, Except.bind_eq_ok]
  refine exists_congr fun fetched => and_congr ?_ ?_
  · rw [← Except.toOption_eq_some, fetchBatches_toOption hnode hfired]
  · rw [Except.mapM_eq_ok, List.forall₂_map_left_iff]

/--
**The completing hashes are those found one by one.**  For any list of subtrees and any
cached blocks, the batched procedure succeeds exactly if the one that takes the subtrees
in turn does, with the same hash for each of them, in the same order.
-/
theorem completingBlockHashes_oneByOne (cache : Cache) (node : HashRpc) (fired : List Nat → Bool)
    (subtrees : List Subtree) (hcache : cache.Encoded) (hnode : node.AnswersEach)
    (hfired : ∀ batch, fired batch = false) :
    (completingBlockHashes cache node fired subtrees).toOption
      = (subtrees.mapM (completingBlockHash cache node)).toOption := by
  obtain ⟨cached, hcached, hat⟩ :=
    hcache.hashesAt_loop (subtrees.map (·.endHeight)) Table.empty
  -- What a subtree's own lookup finds, with the table of cached hashes for the cache.
  have hone : ∀ subtree ∈ subtrees, ∀ hash, completingBlockHash cache node subtree = .ok hash ↔
      match cached.get subtree.endHeight with
      | some wire => wireToDisplayBytes wire = hash
      | none => node.hashAt subtree.endHeight = some hash := by
    intro subtree hin hash
    obtain ⟨stored, hget, hvalue⟩ := (hat subtree.endHeight).1 (List.mem_map_of_mem hin)
    rw [completingBlockHash_eq_ok hget, hvalue, Table.empty_get, Option.or_none]
  have hmissing : ∀ subtree ∈ subtrees, cached.get subtree.endHeight = none →
      subtree.endHeight ∈ Table.keySet ((subtrees.map (·.endHeight)).filter fun height =>
        (cached.get height).isNone) := by
    intro subtree hin hnone
    exact Table.mem_keySet.mpr (List.mem_filter.mpr ⟨List.mem_map_of_mem hin, by rw [hnone]; rfl⟩)
  -- Once the missing heights are filled, both find the same for each subtree.
  have hsame : ∀ fetched, (Table.keySet ((subtrees.map (·.endHeight)).filter fun height =>
        (cached.get height).isNone)).foldlM (Table.fill node.hashAt) Table.empty = some fetched →
      ∀ subtree ∈ subtrees, ∀ hash, resolved cached fetched subtree.endHeight = .ok hash ↔
        completingBlockHash cache node subtree = .ok hash := by
    intro fetched hfill subtree hin hash
    rw [hone subtree hin]
    unfold resolved
    rcases hcase : cached.get subtree.endHeight with _ | wire
    · rw [(Table.foldlM_fill hfill).2, if_pos (hmissing subtree hin hcase)]
      rcases node.hashAt subtree.endHeight with _ | found
      · exact ⟨nofun, nofun⟩
      · simp
    · simp
  refine Except.toOption_congr fun hashes => ?_
  rw [completingBlockHashes_eq_ok hcached hnode hfired, Except.mapM_eq_ok]
  constructor
  · rintro ⟨fetched, hfill, hall⟩
    exact (List.forall₂_congr_of_mem (hsame fetched hfill)).mp hall
  · intro hall
    have hvalued : ∀ height ∈ Table.keySet ((subtrees.map (·.endHeight)).filter fun height =>
        (cached.get height).isNone), (node.hashAt height).isSome = true := by
      intro height hheight
      obtain ⟨hin, hnone⟩ := List.mem_filter.mp (Table.mem_keySet.mp hheight)
      obtain ⟨subtree, hsubtree, rfl⟩ := List.mem_map.mp hin
      obtain ⟨hash, -, hhash⟩ := hall.exists_of_mem hsubtree
      have hvalue := (hone subtree hsubtree hash).mp hhash
      rw [Option.isNone_iff_eq_none.mp hnone] at hvalue
      rw [show node.hashAt subtree.endHeight = some hash from hvalue]
      rfl
    obtain ⟨fetched, hfill⟩ := Option.isSome_iff_exists.mp
      (Table.foldlM_fill_isSome Table.empty hvalued)
    exact ⟨fetched, hfill, (List.forall₂_congr_of_mem (hsame fetched hfill)).mpr hall⟩

/-- A node whose hashes are the bytes of their heights. -/
def countingNode : HashRpc where
  getBlockHash height := .ok (hexEncode [UInt8.ofNat height])
  getBlockHashes heights := defaultBlockHashes (fun height => .ok (hexEncode [UInt8.ofNat height]))
    heights

/-- The store with one block of a chain in which nothing happens. -/
def oneBlock : Cache := (Cache.empty.add 7 (emptyBlock 7)).1

/-- A cached height between two lookups of the same missing one. -/
theorem oneBlock_oneByOne :
    (completingBlockHashes oneBlock countingNode (fun _ => false)
      [⟨"", 9⟩, ⟨"", 7⟩, ⟨"", 9⟩]).toOption
      = some [[9], (beBytes 32 8).reverse, [9]] := by
  rw [completingBlockHashes_oneByOne oneBlock countingNode (fun _ => false) _
    (StoreOp.written_encoded [.add 7 (emptyBlock 7)]) (fun _ => rfl) (fun _ => rfl)]
  decide +kernel

end Lightwalletd
