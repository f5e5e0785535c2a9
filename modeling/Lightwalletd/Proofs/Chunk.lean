/-
One bounded read resolves as much of its request as fits.

The loop of `readChunk` takes rows off the front of the request, in the order it
travels, until the next one would not fit.  `Cut` is what that comes to: the rows
taken and the rows left, of which the first is the one that did not fit.  The first
row of all is taken whatever its size, so that a read always gets somewhere.

The rows are those of a table, so one direction is the other read backwards.  The
covered range ends one height short of the first row left, and since the rows are
strictly ordered, the rows inside it are exactly those taken.
-/
import Lightwalletd.Cache

namespace Lightwalletd

namespace Cache

/-! ### The loop

The loop takes the first row whatever its size, and from then on what fits.  It stops
for good at the first row that does not, even if a later one would.
-/

def rowBytes (rows : List (Nat × Bytes)) : Nat := (rows.map (·.2.length)).sum

@[simp] theorem rowBytes_nil : rowBytes [] = 0 := rfl

@[simp] theorem rowBytes_cons (row : Nat × Bytes) (rows : List (Nat × Bytes)) :
    rowBytes (row :: rows) = row.2.length + rowBytes rows := List.sum_cons

theorem rowBytes_perm {rows rows' : List (Nat × Bytes)} (h : rows.Perm rows') :
    rowBytes rows = rowBytes rows' := (h.map _).sum_eq

/-- Once something is held, rows are taken for as long as they fit. -/
private theorem readLoop_split (maxBytes : Nat) :
    ∀ (entries : List (Nat × Bytes)) (blocks : Table Nat Bytes) (held : Nat), blocks.len ≠ 0 →
      (blocks.rows ++ entries).Pairwise (fun a b => a.1 ≠ b.1) →
      ∃ taken rest, entries = taken ++ rest ∧
        (readLoop maxBytes blocks held entries).1.rows.Perm (blocks.rows ++ taken) ∧
        (readLoop maxBytes blocks held entries).2 = rest.head?.map (·.1) ∧
        (taken = [] ∨ held + rowBytes taken ≤ maxBytes) ∧
        ∀ row ∈ rest.head?, maxBytes < held + rowBytes taken + row.2.length := by
  intro entries
  induction entries with
  | nil =>
      intro blocks held _ _
      exact ⟨[], [], rfl, by simp [readLoop], rfl, Or.inl rfl, by simp⟩
  | cons entry entries ih =>
      obtain ⟨height, bytes⟩ := entry
      intro blocks held hlen hkeys
      unfold readLoop
      by_cases hfull : held + bytes.length > maxBytes
      · rw [if_pos ⟨hlen, hfull⟩]
        exact ⟨[], (height, bytes) :: entries, rfl, by simp, rfl, Or.inl rfl, by simpa using hfull⟩
      · rw [if_neg fun h => hfull h.2]
        have hnew : ∀ row ∈ blocks.rows, row.1 ≠ height := fun row hrow =>
          (List.pairwise_append.mp hkeys).2.2 row hrow (height, bytes) (by simp)
        have hperm := Table.insert_rows_perm bytes hnew
        have hmiddle : ((blocks.insert height bytes).rows ++ entries).Perm
            (blocks.rows ++ (height, bytes) :: entries) :=
          (hperm.append_right entries).trans List.perm_middle.symm
        have hlen' : (blocks.insert height bytes).len ≠ 0 := by
          rw [Table.len, hperm.length_eq]
          simp
        obtain ⟨taken, rest, hsplit, hrows, hstop, hfits, hnext⟩ :=
          ih (blocks.insert height bytes) (held + bytes.length) hlen'
            (hmiddle.symm.pairwise hkeys fun h => Ne.symm h)
        refine ⟨(height, bytes) :: taken, rest, by rw [hsplit]; rfl, ?_, hstop, ?_, ?_⟩
        · exact hrows.trans ((hperm.append_right taken).trans List.perm_middle.symm)
        · right
          rcases hfits with rfl | hfits
          · simp
            omega
          · simp
            omega
        · intro row hrow
          have := hnext row hrow
          simp
          omega

/-- How a bounded read cuts the rows it is given. -/
structure Cut (maxBytes : Nat) (entries taken rest : List (Nat × Bytes)) : Prop where
  split : entries = taken ++ rest
  /-- The first row is never left. -/
  moves : rest ≠ [] → taken ≠ []
  fits : rowBytes taken ≤ maxBytes ∨ taken.length = 1
  /-- The next one would not have fit. -/
  full : ∀ row ∈ rest.head?, maxBytes < rowBytes taken + row.2.length

theorem readLoop_cut (maxBytes : Nat) {entries : List (Nat × Bytes)}
    (hkeys : entries.Pairwise fun a b => a.1 ≠ b.1) :
    ∃ taken rest, Cut maxBytes entries taken rest ∧
      (readLoop maxBytes Table.empty 0 entries).1.rows.Perm taken ∧
      (readLoop maxBytes Table.empty 0 entries).2 = rest.head?.map (·.1) := by
  rcases entries with _ | ⟨⟨height, bytes⟩, entries⟩
  · exact ⟨[], [], ⟨rfl, by simp, by simp, by simp⟩, by simp [readLoop], rfl⟩
  · have hone : (Table.empty.insert height bytes).rows = [(height, bytes)] := rfl
    obtain ⟨taken, rest, hsplit, hrows, hstop, hfits, hnext⟩ :=
      readLoop_split maxBytes entries (Table.empty.insert height bytes) bytes.length
        (by rw [Table.len, hone]; simp) (by rw [hone]; exact hkeys)
    have hfirst : readLoop maxBytes Table.empty 0 ((height, bytes) :: entries)
        = readLoop maxBytes (Table.empty.insert height bytes) bytes.length entries := by
      rw [readLoop, if_neg fun h => h.1 rfl, Nat.zero_add]
    rw [hfirst]
    refine ⟨(height, bytes) :: taken, rest, ⟨by rw [hsplit]; rfl, by simp, ?_, ?_⟩, hrows, hstop⟩
    · rcases hfits with rfl | hfits
      · exact Or.inr rfl
      · exact Or.inl hfits
    · exact hnext

theorem Cut.mem_taken {R : Nat → Nat → Prop} [IsStrictOrder Nat R] {maxBytes : Nat}
    {entries taken rest : List (Nat × Bytes)} (h : Cut maxBytes entries taken rest)
    (hsorted : entries.Pairwise fun a b => R a.1 b.1) {row : Nat × Bytes} :
    row ∈ taken ↔ row ∈ entries ∧ ∀ next ∈ rest.head?, R row.1 next.1 := by
  rw [h.split] at hsorted ⊢
  obtain ⟨-, hrest, hacross⟩ := List.pairwise_append.mp hsorted
  constructor
  · intro hrow
    exact ⟨List.mem_append_left _ hrow, fun next hnext =>
      hacross row hrow next (List.mem_of_head? hnext)⟩
  · rintro ⟨hrow, hbefore⟩
    rcases List.mem_append.mp hrow with hrow | hrow
    · exact hrow
    · rcases rest with _ | ⟨next, rest⟩
      · cases hrow
      · have hlt := hbefore next rfl
        rcases List.mem_cons.mp hrow with rfl | hrow
        · exact absurd hlt (irrefl_of R _)
        · exact absurd (trans_of R hlt (List.rel_of_pairwise_cons hrest hrow)) (irrefl_of R _)

/-- What the loop comes to on the rows of a request: `kept` are those before `left`, the
row it stopped at. -/
structure ReadTo (cache : Cache) (low high : Nat) (descending : Bool) (maxBytes : Nat)
    (kept : Table Nat Bytes) (left : Option (Nat × Bytes)) : Prop where
  mem : ∀ row, row ∈ kept.rows ↔ row ∈ cache.blocks.range low high ∧
    ∀ next ∈ left, if descending then next.1 < row.1 else row.1 < next.1
  fits : rowBytes kept.rows ≤ maxBytes ∨ kept.len = 1
  moves : ∀ next ∈ left, next ∈ cache.blocks.range low high ∧ ∃ first, first ∈ kept.rows
  full : ∀ next ∈ left, maxBytes < rowBytes kept.rows + next.2.length

theorem Cut.readTo {cache : Cache} {low high maxBytes : Nat} {descending : Bool}
    {entries taken rest : List (Nat × Bytes)} {kept : Table Nat Bytes}
    (h : Cut maxBytes entries taken rest)
    (hentries : ∀ row, row ∈ entries ↔ row ∈ cache.blocks.range low high)
    (hkept : kept.rows.Perm taken)
    (htaken : ∀ row, row ∈ taken ↔ row ∈ entries ∧
      ∀ next ∈ rest.head?, if descending then next.1 < row.1 else row.1 < next.1) :
    ReadTo cache low high descending maxBytes kept rest.head? where
  mem row := by rw [hkept.mem_iff, htaken, hentries]
  fits := by
    rw [rowBytes_perm hkept, Table.len, hkept.length_eq]
    exact h.fits
  moves next hnext := by
    have hmem : next ∈ rest := List.mem_of_head? hnext
    obtain ⟨first, hfirst⟩ := List.exists_mem_of_ne_nil _ (h.moves (List.ne_nil_of_mem hmem))
    refine ⟨(hentries next).mp ?_, first, hkept.mem_iff.mpr hfirst⟩
    rw [h.split]
    exact List.mem_append_right _ hmem
  full next hnext := by
    rw [rowBytes_perm hkept]
    exact h.full next hnext

/-- The part of the request on the near side of the row left. -/
def chunkUpTo (low high : Nat) (descending : Bool) (kept : Table Nat Bytes) :
    Option (Nat × Bytes) → CachedChunk
  | some next => if descending then ⟨kept, satAdd next.1 1, high⟩ else ⟨kept, low, next.1 - 1⟩
  | none => ⟨kept, low, high⟩

theorem readChunk_eq (cache : Cache) (low high : Nat) (descending : Bool) (maxBytes : Nat) :
    ∃ kept left, ReadTo cache low high descending maxBytes kept left ∧
      cache.readChunk low high descending maxBytes = chunkUpTo low high descending kept left := by
  have hsorted := cache.blocks.range_sorted low high
  cases descending with
  | false =>
      obtain ⟨taken, rest, hcut, hkept, hstop⟩ :=
        readLoop_cut maxBytes (hsorted.imp fun h => ne_of_lt h)
      refine ⟨_, _, hcut.readTo (fun _ => Iff.rfl) hkept fun row =>
        hcut.mem_taken (R := (· < ·)) hsorted, ?_⟩
      unfold readChunk
      rcases hloop : readLoop maxBytes Table.empty 0 (cache.blocks.range low high) with ⟨kept, stop⟩
      rw [hloop] at hstop
      rcases rest with _ | ⟨next, rest⟩ <;> simp_all [chunkUpTo]
  | true =>
      have hreverse : (cache.blocks.range low high).reverse.Pairwise fun a b => a.1 > b.1 :=
        List.pairwise_reverse.mpr hsorted
      obtain ⟨taken, rest, hcut, hkept, hstop⟩ :=
        readLoop_cut maxBytes (hreverse.imp fun h => ne_of_gt h)
      refine ⟨_, _, hcut.readTo (fun _ => List.mem_reverse) hkept fun row =>
        hcut.mem_taken (R := (· > ·)) hreverse, ?_⟩
      unfold readChunk
      rcases hloop : readLoop maxBytes Table.empty 0 (cache.blocks.range low high).reverse
        with ⟨kept, stop⟩
      rw [hloop] at hstop
      rcases rest with _ | ⟨next, rest⟩ <;> simp_all [chunkUpTo]

/-! ### The chunk -/

/-- A maximal part of the request `[low, high]` as `descending` travels it. -/
structure CachedChunk.Maximal (cache : Cache) (low high : Nat) (descending : Bool)
    (maxBytes : Nat) (chunk : CachedChunk) : Prop where
  nonempty : chunk.low ≤ chunk.high
  within : low ≤ chunk.low ∧ chunk.high ≤ high
  anchored : if descending then chunk.high = high else chunk.low = low
  /-- The rows of the covered heights, and no others. -/
  stored : chunk.blocks.rows = cache.blocks.range chunk.low chunk.high
  fits : rowBytes chunk.blocks.rows ≤ maxBytes ∨ chunk.blocks.len = 1
  /-- Where the chunk stops short, the next height has a row that did not fit. -/
  full : chunk.low = low ∧ chunk.high = high ∨
    ∃ value, cache.blocks.get (if descending then chunk.low - 1 else chunk.high + 1) = some value ∧
      maxBytes < rowBytes chunk.blocks.rows + value.length

theorem readChunk_maximal_of (cache : Cache) {low high : Nat} (descending : Bool) (maxBytes : Nat)
    (hle : low ≤ high) (hmax : high ≤ u64Max) :
    (cache.readChunk low high descending maxBytes).Maximal cache low high descending maxBytes := by
  obtain ⟨kept, left, hread, heq⟩ := cache.readChunk_eq low high descending maxBytes
  rw [heq]
  rcases left with _ | ⟨height, bytes⟩
  · rw [chunkUpTo]
    refine ⟨hle, ⟨Nat.le_refl _, Nat.le_refl _⟩, by simp, ?_, hread.fits, Or.inl ⟨rfl, rfl⟩⟩
    exact Table.rows_eq_of_mem (cache.blocks.range_sorted low high) fun row => by
      simpa using hread.mem row
  -- A row was kept on the near side of the one left, so the covered heights are some.
  obtain ⟨hleft, first, hfirst⟩ := hread.moves _ rfl
  obtain ⟨hstored, hlow, hhigh⟩ := Table.mem_range.mp hleft
  obtain ⟨hwithin, hbefore⟩ := (hread.mem first).mp hfirst
  obtain ⟨-, hlow', hhigh'⟩ := Table.mem_range.mp hwithin
  have hbefore := hbefore _ rfl
  have hmem := hread.mem
  have hfull := hread.full _ rfl
  have hget := Table.get_eq_some_iff.mpr hstored
  simp only [Option.mem_def, Option.some.injEq, forall_eq', Table.mem_range] at hmem hbefore
  cases descending with
  | false =>
      simp only [Bool.false_eq_true, if_false] at hmem hbefore hlow hhigh
      have hrows : kept.rows = cache.blocks.range low (height - 1) := by
        refine Table.rows_eq_of_mem (cache.blocks.range_sorted _ _) fun row => ?_
        rw [hmem, Table.mem_range, and_assoc]
        exact and_congr_right fun _ => by omega
      have hnext : height - 1 + 1 = height := by omega
      have hcovered : low ≤ height - 1 ∧ height - 1 ≤ high := by omega
      rw [chunkUpTo, if_neg (by simp)]
      exact ⟨hcovered.1, ⟨Nat.le_refl _, hcovered.2⟩, by simp, hrows, hread.fits,
        Or.inr ⟨bytes, by simpa [hnext] using hget, hfull⟩⟩
  | true =>
      simp only [if_true] at hmem hbefore hlow hhigh
      have hrows : kept.rows = cache.blocks.range (height + 1) high := by
        refine Table.rows_eq_of_mem (cache.blocks.range_sorted _ _) fun row => ?_
        rw [hmem, Table.mem_range, and_assoc]
        exact and_congr_right fun _ => by omega
      have hcovered : height + 1 ≤ high ∧ low ≤ height + 1 := by omega
      rw [chunkUpTo, if_pos rfl, show satAdd height 1 = height + 1 from satAdd_of_le (by omega)]
      exact ⟨hcovered.1, ⟨hcovered.2, Nat.le_refl _⟩, by simp, hrows, hread.fits,
        Or.inr ⟨bytes, by simpa using hget, hfull⟩⟩

theorem readChunk_rows (cache : Cache) (low high : Nat) (descending : Bool) (maxBytes : Nat) :
    ∀ row ∈ (cache.readChunk low high descending maxBytes).blocks.rows,
      row ∈ cache.blocks.rows := by
  intro row hrow
  obtain ⟨kept, left, hread, heq⟩ := cache.readChunk_eq low high descending maxBytes
  have hkept : (cache.readChunk low high descending maxBytes).blocks = kept := by
    rw [heq]
    cases left <;> cases descending <;> rfl
  rw [hkept] at hrow
  exact (Table.mem_range.mp ((hread.mem row).mp hrow).1).1

/-- At a height it covers, a chunk holds what the cache holds. -/
theorem CachedChunk.Maximal.get {cache : Cache} {low high maxBytes : Nat} {descending : Bool}
    {chunk : CachedChunk} (h : chunk.Maximal cache low high descending maxBytes) {height : Nat}
    (hlow : chunk.low ≤ height) (hhigh : height ≤ chunk.high) :
    chunk.blocks.get height = cache.blocks.get height := by
  refine Option.ext fun bytes => ?_
  show chunk.blocks.get height = some bytes ↔ cache.blocks.get height = some bytes
  rw [Table.get_eq_some_iff, Table.get_eq_some_iff, h.stored, Table.mem_range]
  exact ⟨fun hin => hin.1, fun hin => ⟨hin, hlow, hhigh⟩⟩

/--
**A bounded read resolves a maximal part of its request.**  The covered range is a
non-empty part of the request that starts where the read does, the blocks are the
stored rows of that range byte for byte, they fit the budget unless there is only
one, and where the range ends early, the next height holds a row that would have
exceeded the budget.
-/
theorem readChunk_maximal (cache : Cache) {low high : Nat} (descending : Bool) (maxBytes : Nat)
    (hle : low ≤ high) (hmax : high ≤ u64Max) :
    ∃ chunk, cache.readChunk low high descending maxBytes = chunk ∧
      chunk.low ≤ chunk.high ∧ low ≤ chunk.low ∧ chunk.high ≤ high ∧
      (if descending then chunk.high = high else chunk.low = low) ∧
      chunk.blocks.rows
        = cache.blocks.rows.filter (fun row => chunk.low ≤ row.1 ∧ row.1 ≤ chunk.high) ∧
      ((chunk.blocks.rows.map (·.2.length)).sum ≤ maxBytes ∨ chunk.blocks.rows.length = 1) ∧
      (¬ (chunk.low = low ∧ chunk.high = high) →
        ∃ value, cache.blocks.get (if descending then chunk.low - 1 else chunk.high + 1)
          = some value ∧
          maxBytes < (chunk.blocks.rows.map (·.2.length)).sum + value.length) := by
  have h := cache.readChunk_maximal_of descending maxBytes hle hmax
  refine ⟨_, rfl, h.nonempty, h.within.1, h.within.2, h.anchored, ?_, h.fits, ?_⟩
  · rw [h.stored, Table.range]
    simp only [Bool.decide_and]
  · exact fun hshort => h.full.resolve_left hshort

/-- Three rows with a gap, of which two fit a budget of five bytes. -/
def gappedCache : Cache :=
  { Cache.empty with blocks := ((Table.empty.insert 4 [1, 2]).insert 7 [3, 4, 5]).insert 9 [6, 7] }

theorem gappedCache_chunks :
    (gappedCache.readChunk 3 12 false 5).high = 8 ∧ (gappedCache.readChunk 3 12 true 4).low = 8 ∧
    ∃ value, gappedCache.blocks.get 9 = some value ∧
      5 < ((gappedCache.readChunk 3 12 false 5).blocks.rows.map (·.2.length)).sum
        + value.length := by
  obtain ⟨chunk, rfl, -, -, -, -, -, -, hfull⟩ := @readChunk_maximal gappedCache 3 12 false 5
    (by decide) (by decide)
  exact ⟨by decide, by decide, hfull (by decide)⟩

end Cache

end Lightwalletd
