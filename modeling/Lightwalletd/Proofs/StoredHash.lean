/-
Reading only the hash agrees with reading the whole block.

The reader that declares the hash alone steps over every other field of a block by
its wire type and its length, so it finds what a full decoding finds: no byte of a
nested message is ever looked at.  Every row of a store that is written through its
interface is the encoding of a block, and that makes the hashes read off the rows
those of the blocks that are read back from them.
-/
import Lightwalletd.StoredHash
import Lightwalletd.Proofs.Store

namespace Lightwalletd

open Protobuf

/-! ### One block

The reader of a hash steps over every field of a block but one.
-/

section

variable (declared : Nat)

private theorem found_number (tag n : Nat) (found : Bytes) :
    (number tag n).foldl (Field.found declared) found = found := by
  unfold number
  split <;> rfl

private theorem found_bytes_self (b found : Bytes) (h : found = []) :
    (bytes declared b).foldl (Field.found declared) found = b := by
  unfold bytes
  by_cases hb : b = []
  · rw [if_pos hb, hb]
    exact h
  · rw [if_neg hb]
    exact if_pos rfl

private theorem found_other {fields : List Field} (h : ∀ field ∈ fields, field.tag ≠ declared)
    (found : Bytes) : fields.foldl (Field.found declared) found = found := by
  induction fields with
  | nil => rfl
  | cons field fields ih =>
      have hfield : field.found declared found = found := by
        obtain ⟨tag, n | b⟩ := field
        · rfl
        · exact if_neg (h _ List.mem_cons_self)
      rw [List.foldl_cons, hfield]
      exact ih fun other hother => h other (List.mem_cons_of_mem _ hother)

end

/-- The tags of a block's fields: the hash has its own, and it holds bytes. -/
theorem CompactBlock.fields_tags (m : CompactBlock) : ∀ field ∈ m.fields, ValidTag field.tag ∧
    (field.tag = StoredBlockHash.hashTag → field.value.wireType = .lengthDelimited) := by
  intro field h
  obtain ⟨htag, hdeclared⟩ := m.declares field h
  refine ⟨htag, fun hhash => ?_⟩
  rw [hhash] at hdeclared
  exact (Option.some.inj hdeclared).symm

theorem CompactBlock.found_hash (m : CompactBlock) :
    m.fields.foldl (Field.found StoredBlockHash.hashTag) [] = m.hash := by
  have hother : ∀ {fields : List Field} {tag : Nat}, (∀ field ∈ fields, field.tag = tag) →
      tag ≠ StoredBlockHash.hashTag → ∀ found : Bytes,
      fields.foldl (Field.found StoredBlockHash.hashTag) found = found := by
    intro fields tag htag hne found
    exact found_other _ (fun field hfield => (htag field hfield).symm ▸ hne) found
  unfold CompactBlock.fields
  simp only [List.foldl_append]
  rw [hother (fun field h => (mem_repeated h).1) (by decide),
    hother (fun field h => (mem_repeated h).1) (by decide),
    hother (fun field h => (mem_bytes h).1) (by decide),
    hother (fun field h => (mem_number32 h).1) (by decide),
    hother (fun field h => (mem_bytes h).1) (by decide)]
  exact found_bytes_self _ _ _ (found_number _ _ _ _)

/-- **The hash is read off any block's encoding.** -/
theorem StoredBlockHash.decode_encode (m : CompactBlock) :
    StoredBlockHash.decode m.encode = .ok ⟨m.hash⟩ := by
  unfold StoredBlockHash.decode CompactBlock.encode encodeMessage
  rw [findBytes_encode _ _ _ _ m.fields_tags (length_le_encode _), m.found_hash]

/-! ### A whole cache -/

/-- Every row is the encoding of a block. -/
def Cache.Encoded (cache : Cache) : Prop :=
  ∀ row ∈ cache.blocks.rows, ∃ block, row.2 = Prost.encode block

theorem Cache.Encoded.append {cache : Cache} (h : cache.Encoded)
    (items : List (Except CacheError CompactBlock)) (base : Option Nat) :
    (cache.append items base).1.Encoded := by
  rcases cache.append_cases items base with
    ⟨e, heq⟩ | ⟨-, heq⟩ | ⟨blocks, start, cache', -, heq, happ⟩
  · rw [heq]
    exact h
  · rw [heq]
    exact h
  · rw [heq]
    intro row hrow
    rw [happ.rows] at hrow
    rcases List.mem_append.mp hrow with hold | hnew
    · exact h row hold
    · obtain ⟨block, -, rfl⟩ := List.mem_map.mp hnew
      exact ⟨block, rfl⟩

theorem Cache.Encoded.removeFrom {cache : Cache} (h : cache.Encoded) (cut : Nat) :
    (cache.removeFrom cut).1.Encoded :=
  fun row hrow => h row ((cache.removeFrom_prefix cut).subset hrow)

theorem StoreOp.apply_encoded {cache : Cache} (h : cache.Encoded) (op : StoreOp) :
    (op.apply cache).1.Encoded := by
  cases op with
  | add height block =>
      show (cache.add height block).1.Encoded
      unfold Cache.add
      split
      · exact h
      · exact h.append _ none
  | addBatch blocks => exact h.append _ none
  | addDecodedBatch blocks base => exact h.append blocks base
  | setEpochDigest index value => exact h
  | reorg height => exact h.removeFrom _
  | truncateFrom height => exact h.removeFrom height

/-- What a sequence of calls makes of an empty store. -/
def StoreOp.written (calls : List StoreOp) : Cache :=
  calls.foldl (fun cache op => (op.apply cache).1) Cache.empty

theorem StoreOp.written_encoded (calls : List StoreOp) : (written calls).Encoded := by
  have hkeeps : ∀ (calls : List StoreOp) (cache : Cache), cache.Encoded →
      (calls.foldl (fun cache op => (op.apply cache).1) cache).Encoded := by
    intro calls
    induction calls with
    | nil => exact fun cache h => h
    | cons op rest ih => exact fun cache h => ih _ (apply_encoded h op)
  exact hkeeps calls Cache.empty fun row hrow => absurd hrow List.not_mem_nil

theorem Cache.Encoded.get_cases {cache : Cache} (h : cache.Encoded) (height : Nat) :
    (∃ block : CompactBlock, cache.blocks.get height = some block.encode ∧
      cache.get height = .ok (some block)) ∨
    cache.blocks.get height = none ∧ cache.get height = .ok none := by
  unfold Cache.get
  rcases hget : cache.blocks.get height with _ | value
  · exact Or.inr ⟨rfl, rfl⟩
  · obtain ⟨block, rfl⟩ := h _ (Table.get_eq_some_iff.mp hget)
    refine Or.inl ⟨block, rfl, ?_⟩
    simp only [Cache.decodeBlock, Prost.decode_encode]
    rfl

/-- What is found at one height: its block's hash, over what was there. -/
theorem Cache.Encoded.insertHash {cache : Cache} (h : cache.Encoded) (hashes : Table Nat Bytes)
    (height : Nat) : ∃ (stored : Option CompactBlock) (next : Table Nat Bytes),
      cache.get height = .ok stored ∧ cache.insertHash hashes height = .ok next ∧
      ∀ other, next.get other = if other = height then (stored.map (·.hash)).or (hashes.get height)
        else hashes.get other := by
  rcases h.get_cases height with ⟨block, hrow, hget⟩ | ⟨hrow, hget⟩
  · refine ⟨some block, hashes.insert height block.hash, hget, ?_, fun other => ?_⟩
    · rw [Cache.insertHash, hrow]
      simp only [StoredBlockHash.decode_encode]
      rfl
    · rw [Table.get_insert]
      rfl
  · refine ⟨none, hashes, hget, by rw [Cache.insertHash, hrow], fun other => ?_⟩
    by_cases hother : other = height
    · rw [if_pos hother, hother]
      rfl
    · rw [if_neg hother]

/-- The loop over the heights, whatever was found before it. -/
theorem Cache.Encoded.hashesAt_loop {cache : Cache} (h : cache.Encoded) :
    ∀ (heights : List Nat) (hashes : Table Nat Bytes), ∃ final,
      heights.foldlM cache.insertHash hashes = .ok final ∧
      ∀ height, (height ∈ heights → ∃ stored, cache.get height = .ok stored ∧
          final.get height = (stored.map (·.hash)).or (hashes.get height)) ∧
        (height ∉ heights → final.get height = hashes.get height) := by
  intro heights
  induction heights with
  | nil => exact fun hashes => ⟨hashes, rfl, fun height => ⟨nofun, fun _ => rfl⟩⟩
  | cons first rest ih =>
      intro hashes
      obtain ⟨stored, next, hget, hnext, hat⟩ := h.insertHash hashes first
      obtain ⟨final, hfinal, hall⟩ := ih next
      refine ⟨final, by rw [List.foldlM_cons, hnext]; exact hfinal, fun height => ⟨fun hin => ?_,
        fun hout => ?_⟩⟩
      · by_cases hfirst : height = first
        · subst hfirst
          have hhere : next.get height = (stored.map (·.hash)).or (hashes.get height) := by
            rw [hat, if_pos rfl]
          refine ⟨stored, hget, ?_⟩
          by_cases hagain : height ∈ rest
          · obtain ⟨stored', hget', hvalue⟩ := (hall height).1 hagain
            obtain rfl : stored = stored' := Except.ok.inj (hget.symm.trans hget')
            rw [hvalue, hhere, ← Option.or_assoc, Option.or_self]
          · rw [(hall height).2 hagain, hhere]
        · have hrest : height ∈ rest := (List.mem_cons.mp hin).resolve_left hfirst
          obtain ⟨stored', hget', hvalue⟩ := (hall height).1 hrest
          exact ⟨stored', hget', by rw [hvalue, hat, if_neg hfirst]⟩
      · obtain ⟨hfirst, hrest⟩ := not_or.mp (mt List.mem_cons.mpr hout)
        rw [(hall height).2 hrest, hat, if_neg hfirst]

/--
**Reading only the hashes agrees with reading the blocks.**  The hash read off a block's
encoding is the block's.  And of any store written through its interface, whatever
heights are asked for, `hashesAt` has the hash of the block that `get` reads at each of
those that is cached, and nothing at any other.
-/
theorem hashesAt_agrees (calls : List StoreOp) (heights : List Nat) :
    (∀ block : CompactBlock, StoredBlockHash.decode block.encode = .ok ⟨block.hash⟩) ∧
    ∃ hashes, (StoreOp.written calls).hashesAt heights = .ok hashes ∧
      ∀ height, (height ∈ heights → ∃ stored, (StoreOp.written calls).get height = .ok stored ∧
          hashes.get height = stored.map (·.hash)) ∧
        (height ∉ heights → hashes.get height = none) := by
  refine ⟨StoredBlockHash.decode_encode, ?_⟩
  obtain ⟨hashes, hrun, hall⟩ :=
    (StoreOp.written_encoded calls).hashesAt_loop heights Table.empty
  refine ⟨hashes, hrun, fun height => ⟨fun hin => ?_, fun hout => ?_⟩⟩
  · obtain ⟨stored, hget, hvalue⟩ := (hall height).1 hin
    exact ⟨stored, hget, by rw [hvalue, Table.empty_get, Option.or_none]⟩
  · rw [(hall height).2 hout, Table.empty_get]

end Lightwalletd
