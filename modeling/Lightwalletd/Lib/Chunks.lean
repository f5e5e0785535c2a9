/-
A list in chunks, and tables filled key by key.

Work that is handed out in chunks is done in the order of the list all the same, and a
table that is filled from a partial function of its keys holds what that function says,
however often a key comes up.
-/
import Lightwalletd.Lib.Result
import Lightwalletd.Lib.Table

/-- The list in chunks of `size`, the last one shorter. -/
def List.chunks {α : Type} (size : Nat) (l : List α) : List (List α) :=
  (List.range ((l.length + size - 1) / size)).map fun number => (l.drop (number * size)).take size

theorem List.flatten_chunks {α : Type} {size : Nat} (hsize : 0 < size) (l : List α) :
    (l.chunks size).flatten = l := by
  have hfront : ∀ count, ((List.range count).map fun number =>
      (l.drop (number * size)).take size).flatten = l.take (count * size) := by
    intro count
    induction count with
    | zero => simp
    | succ count ih =>
        rw [List.range_succ, List.map_append, List.flatten_append, ih, Nat.succ_mul, List.take_add]
        simp
  have hcount : l.length ≤ (l.length + size - 1) / size * size := by
    have hdiv := Nat.div_add_mod (l.length + size - 1) size
    have hmod := Nat.mod_lt (l.length + size - 1) hsize
    rw [Nat.mul_comm] at hdiv
    omega
  rw [List.chunks, hfront, List.take_of_length_le hcount]

/-- Work in chunks is the work on the whole list. -/
theorem List.foldlM_flatten {α β : Type} {f : β → α → Option β} {l : List (List α)} (b : β) :
    l.foldlM (fun b chunk => chunk.foldlM f b) b = l.flatten.foldlM f b := by
  induction l generalizing b with
  | nil => rfl
  | cons chunk rest ih =>
      rw [List.foldlM_cons, List.flatten_cons, List.foldlM_append]
      simp only [ih]

namespace Table

variable {κ α : Type} [LinearOrder κ]

/-- Insert what `value` says of `key`, if it says anything. -/
def fill (value : κ → Option α) (t : Table κ α) (key : κ) : Option (Table κ α) :=
  (value key).map (t.insert key)

/-- A table is filled if every key has a value, and then it holds them. -/
theorem foldlM_fill {value : κ → Option α} :
    ∀ {keys : List κ} {t final : Table κ α}, keys.foldlM (fill value) t = some final →
      (∀ key ∈ keys, (value key).isSome = true) ∧
      ∀ key, final.get key = if key ∈ keys then value key else t.get key := by
  intro keys
  induction keys with
  | nil =>
      intro t final h
      obtain rfl : t = final := Option.some.inj h
      exact ⟨nofun, fun key => rfl⟩
  | cons first rest ih =>
      intro t final h
      obtain ⟨next, hnext, hrest⟩ := Option.bind_eq_some_iff.mp h
      obtain ⟨v, hv, rfl⟩ := Option.map_eq_some_iff.mp hnext
      obtain ⟨hall, hat⟩ := ih hrest
      refine ⟨fun key hkey => ?_, fun key => ?_⟩
      · rcases List.mem_cons.mp hkey with rfl | hkey
        · rw [hv]
          rfl
        · exact hall key hkey
      · rw [hat, get_insert]
        by_cases hrest : key ∈ rest
        · rw [if_pos hrest, if_pos (List.mem_cons_of_mem _ hrest)]
        · by_cases hfirst : key = first
          · rw [if_neg hrest, if_pos hfirst, if_pos (by rw [hfirst]; exact List.mem_cons_self),
              hfirst, hv]
          · rw [if_neg hrest, if_neg hfirst, if_neg (by simp [hrest, hfirst])]

theorem foldlM_fill_isSome {value : κ → Option α} :
    ∀ {keys : List κ} (t : Table κ α), (∀ key ∈ keys, (value key).isSome = true) →
      (keys.foldlM (fill value) t).isSome = true := by
  intro keys
  induction keys with
  | nil => exact fun t _ => rfl
  | cons first rest ih =>
      intro t h
      obtain ⟨v, hv⟩ := Option.isSome_iff_exists.mp (h first List.mem_cons_self)
      rw [List.foldlM_cons, fill, hv]
      exact ih (t.insert first v) fun key hkey => h key (List.mem_cons_of_mem _ hkey)

/-! ### Sets of keys -/

/-- The keys of a list, in order and once each. -/
def keySet (l : List κ) : List κ :=
  (l.foldl (fun t key => t.insert key ()) (empty : Table κ Unit)).rows.map (·.1)

theorem mem_keySet {l : List κ} {key : κ} : key ∈ keySet l ↔ key ∈ l := by
  have hget : ∀ (l : List κ) (t : Table κ Unit),
      ((l.foldl (fun t key => t.insert key ()) t).get key).isSome = true ↔
        key ∈ l ∨ (t.get key).isSome = true := by
    intro l
    induction l with
    | nil => intro t; simp
    | cons first rest ih =>
        intro t
        rw [List.foldl_cons, ih, get_insert]
        by_cases hfirst : key = first
        · simp [hfirst]
        · simp [hfirst]
  have hmem : key ∈ keySet l ↔
      ((l.foldl (fun t key => t.insert key ()) (empty : Table κ Unit)).get key).isSome = true := by
    rw [Option.isSome_iff_exists]
    constructor
    · intro h
      obtain ⟨row, hrow, rfl⟩ := List.mem_map.mp h
      exact ⟨row.2, get_eq_some_iff.mpr hrow⟩
    · rintro ⟨u, hu⟩
      exact List.mem_map.mpr ⟨(key, u), get_eq_some_iff.mp hu, rfl⟩
  rw [hmem, hget l empty, empty_get]
  simp

end Table
