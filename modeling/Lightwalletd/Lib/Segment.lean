/-
Tables whose keys have no gap.

An append-only store keyed by height holds a segment: the heights from its lowest
to its highest row, each once.  `Contiguous` says so by naming the list of keys
outright, an interval of naturals, and everything a store needs of it is read off
that list: how many rows there are, which keys are held, that a prefix is again a
segment and that a segment extended at its upper end is one.
-/
import Lightwalletd.Lib.Table

theorem range'_join (low middle high : Nat) (hlow : low ≤ middle) (hhigh : middle ≤ high + 1) :
    List.range' low (middle - low) ++ List.range' middle (high + 1 - middle)
      = List.range' low (high + 1 - low) := by
  have hmid : middle = low + (middle - low) := by omega
  have hsum : high + 1 - low = (middle - low) + (high + 1 - middle) := by omega
  rw [hsum, ← List.range'_append_1, ← hmid]

/-- Increasing numbers from `low` on of which none below another is left out: a run. -/
theorem eq_range'_of_closed {l : List Nat} {low : Nat} (hsorted : l.Pairwise (· < ·))
    (hlow : ∀ n ∈ l, low ≤ n) (hclosed : ∀ n ∈ l, ∀ k, low ≤ k → k ≤ n → k ∈ l) :
    l = List.range' low l.length := by
  induction l generalizing low with
  | nil => rfl
  | cons a l ih =>
      obtain ⟨hfirst, hrest⟩ := List.pairwise_cons.mp hsorted
      have ha := hlow a List.mem_cons_self
      -- `low` itself is there, and nothing comes before `a`.
      obtain rfl : low = a := by
        rcases List.mem_cons.mp (hclosed a List.mem_cons_self low (Nat.le_refl _) ha) with h | h
        · exact h
        · have := hfirst low h
          omega
      have hstep : l = List.range' (low + 1) l.length := by
        refine ih hrest (fun n hn => hfirst n hn) ?_
        intro n hn k hk hkn
        have hheld := hclosed n (List.mem_cons_of_mem _ hn) k (by omega) hkn
        rcases List.mem_cons.mp hheld with rfl | h
        · omega
        · exact h
      rw [List.length_cons, List.range'_succ, ← hstep]

/-- As many increasing numbers between `low` and `high` as there are: all of them. -/
theorem eq_range'_of_increasing {l : List Nat} {low high : Nat} (hsorted : l.Pairwise (· < ·))
    (hbounds : ∀ n ∈ l, low ≤ n ∧ n ≤ high) (hlength : l.length = high + 1 - low) :
    l = List.range' low (high + 1 - low) := by
  have hsub : l ⊆ List.range' low (high + 1 - low) := by
    intro n hn
    obtain ⟨hlow, hhigh⟩ := hbounds n hn
    exact List.mem_range'_1.mpr ⟨hlow, by omega⟩
  have hnodup : l.Nodup := hsorted.imp Nat.ne_of_lt
  have hperm : l.Perm (List.range' low (high + 1 - low)) :=
    (hnodup.subperm hsub).perm_of_length_le (by simp [hlength])
  exact hperm.eq_of_pairwise (fun a b _ _ hab hba => absurd hab (Nat.lt_asymm hba)) hsorted
    List.pairwise_lt_range'

namespace Table

variable {α : Type}

/-- The keys in order. -/
def keys (t : Table Nat α) : List Nat := t.rows.map (·.1)

/-- The keys are an interval. -/
def Contiguous (t : Table Nat α) : Prop := ∃ low, t.keys = List.range' low t.len

theorem keys_length (t : Table Nat α) : t.keys.length = t.len := List.length_map ..

theorem contiguous_empty : Contiguous (empty : Table Nat α) := ⟨0, rfl⟩

theorem mem_keys {t : Table Nat α} {k : Nat} : k ∈ t.keys ↔ ∃ v, (k, v) ∈ t.rows := by
  simp [keys]

theorem get_isSome_iff_mem_keys {t : Table Nat α} {k : Nat} :
    (t.get k).isSome = true ↔ k ∈ t.keys := by
  rw [Option.isSome_iff_exists, mem_keys]
  exact exists_congr fun v => get_eq_some_iff

/-- Any prefix of a segment is a segment with the same lower end. -/
private theorem keys_of_prefix {s t : Table Nat α} {low : Nat} (h : s.rows <+: t.rows)
    (ht : t.keys = List.range' low t.len) : s.keys = List.range' low s.len := by
  have hpre : s.keys <+: t.keys := h.map _
  have htake : s.keys = t.keys.take s.len := by
    rw [← keys_length]
    exact List.prefix_iff_eq_take.mp hpre
  have hle : s.len ≤ t.len := h.length_le
  rw [htake, ht, List.take_range'_of_length_ge hle]

theorem Contiguous.of_prefix {s t : Table Nat α} (ht : t.Contiguous)
    (h : s.rows <+: t.rows) : s.Contiguous := by
  obtain ⟨low, hlow⟩ := ht
  exact ⟨low, keys_of_prefix h hlow⟩

/-- A segment starts at its lowest row. -/
theorem Contiguous.keys_eq {t : Table Nat α} (ht : t.Contiguous) {low : Nat} {v : α}
    (hfirst : t.first = some (low, v)) : t.keys = List.range' low t.len := by
  obtain ⟨low', hlow⟩ := ht
  obtain ⟨rest, hrest⟩ := List.head?_eq_some_iff.mp hfirst
  have hlen : t.len = rest.length + 1 := by rw [len, hrest, List.length_cons]
  have hcons : t.keys = low :: rest.map (·.1) := by rw [keys, hrest]; rfl
  rw [hlen, List.range'_succ] at hlow
  have heq : low = low' := (List.cons.inj (hcons.symm.trans hlow)).1
  rw [heq, hlow, hlen, List.range'_succ]

theorem Contiguous.last_key {t : Table Nat α} (ht : t.Contiguous) {low high : Nat} {v w : α}
    (hfirst : t.first = some (low, v)) (hlast : t.last = some (high, w)) :
    low ≤ high ∧ t.len = high - low + 1 := by
  have hkeys := ht.keys_eq hfirst
  have hpos : 0 < t.len := List.length_pos_of_mem (first_mem hfirst)
  have hgl : t.keys.getLast? = some high := by
    rw [keys, List.getLast?_map, show t.rows.getLast? = some (high, w) from hlast]
    rfl
  rw [hkeys, List.getLast?_range'] at hgl
  rw [if_neg (by omega)] at hgl
  have := Option.some.inj hgl
  omega

theorem Contiguous.mem_keys_iff {t : Table Nat α} (ht : t.Contiguous) {low high : Nat} {v w : α}
    (hfirst : t.first = some (low, v)) (hlast : t.last = some (high, w)) {k : Nat} :
    k ∈ t.keys ↔ low ≤ k ∧ k ≤ high := by
  obtain ⟨hle, hlen⟩ := ht.last_key hfirst hlast
  rw [ht.keys_eq hfirst, List.mem_range'_1, hlen]
  omega

/-- A table that holds every key between its ends is a segment. -/
theorem contiguous_of_closed {t : Table Nat α} {low high : Nat} {v w : α}
    (hfirst : t.first = some (low, v)) (hlast : t.last = some (high, w))
    (hclosed : ∀ k, low ≤ k → k ≤ high → k ∈ t.keys) : t.Contiguous := by
  refine ⟨low, ?_⟩
  rw [← keys_length]
  refine eq_range'_of_closed (List.pairwise_map.mpr t.sorted) ?_ ?_
  · intro n hn
    obtain ⟨x, hx⟩ := mem_keys.mp hn
    exact first_le hx hfirst
  · intro n hn k hlow hk
    obtain ⟨x, hx⟩ := mem_keys.mp hn
    exact hclosed k hlow (Nat.le_trans hk (le_last hx hlast))

/-- A table with as many rows as there are keys between its ends is a segment. -/
theorem contiguous_of_len {t : Table Nat α} {low high : Nat} {v w : α}
    (hfirst : t.first = some (low, v)) (hlast : t.last = some (high, w))
    (hlen : t.len = high - low + 1) : t.Contiguous := by
  have hle : low ≤ high := first_le (last_mem hlast) hfirst
  have hcount : t.len = high + 1 - low := by omega
  refine ⟨low, ?_⟩
  rw [hcount]
  refine eq_range'_of_increasing (List.pairwise_map.mpr t.sorted) ?_ (by rw [keys_length, hcount])
  intro n hn
  obtain ⟨x, hx⟩ := mem_keys.mp hn
  exact ⟨first_le hx hfirst, le_last hx hlast⟩

theorem Contiguous.getElem?_eq {t : Table Nat α} {low : Nat}
    (hkeys : t.keys = List.range' low t.len)
    {k : Nat} {v : α} (hget : t.get k = some v) : low ≤ k ∧ t.rows[k - low]? = some (k, v) := by
  obtain ⟨i, hi⟩ := List.mem_iff_getElem?.mp (get_eq_some_iff.mp hget)
  have hlt : i < t.len := (List.getElem?_eq_some_iff.mp hi).1
  have hkey : t.keys[i]? = some k := by rw [keys, List.getElem?_map, hi]; rfl
  rw [hkeys, List.getElem?_range' hlt] at hkey
  have hk : low + i = k := by simpa using hkey
  refine ⟨by omega, ?_⟩
  rw [show k - low = i by omega]
  exact hi

theorem Contiguous.adjacent {t : Table Nat α} (ht : t.Contiguous) {R : Nat × α → Nat × α → Prop}
    (hchain : t.rows.IsChain R) {k : Nat} {v w : α} (hlower : t.get k = some v)
    (hupper : t.get (k + 1) = some w) : R (k, v) (k + 1, w) := by
  obtain ⟨low, hkeys⟩ := ht
  obtain ⟨hle, hi⟩ := getElem?_eq hkeys hlower
  obtain ⟨-, hj⟩ := getElem?_eq hkeys hupper
  rw [show k + 1 - low = k - low + 1 by omega] at hj
  obtain ⟨hlt, hrow⟩ := List.getElem?_eq_some_iff.mp hi
  obtain ⟨hlt', hrow'⟩ := List.getElem?_eq_some_iff.mp hj
  rw [← hrow, ← hrow']
  exact List.isChain_iff_getElem.mp hchain (k - low) hlt'

/-- Extending a segment right above its highest row, or an empty one anywhere. -/
theorem Contiguous.append {s t : Table Nat α} {new : List (Nat × α)} {h : Nat}
    (ht : t.Contiguous) (hrows : s.rows = t.rows ++ new)
    (hnew : new.map (·.1) = List.range' h new.length)
    (hjoin : ∀ row, t.last = some row → h = row.1 + 1) : s.Contiguous := by
  have hkeys : s.keys = t.keys ++ List.range' h new.length := by
    rw [keys, hrows, List.map_append, hnew]; rfl
  have hlen : s.len = t.len + new.length := by rw [len, hrows, List.length_append]; rfl
  cases hfirst : t.first with
  | none =>
      have hnil := first_eq_none_iff.mp hfirst
      refine ⟨h, ?_⟩
      rw [hkeys, hlen, keys, len, hnil]
      simp
  | some low =>
      obtain ⟨low, v⟩ := low
      cases hlast : t.last with
      | none =>
          rw [last_eq_none_iff] at hlast
          rw [first, hlast] at hfirst
          simp at hfirst
      | some top =>
          obtain ⟨high, w⟩ := top
          obtain ⟨hle, hlen'⟩ := ht.last_key hfirst hlast
          have hh : h = low + t.len := by
            have := hjoin _ hlast
            simp only at this
            omega
          refine ⟨low, ?_⟩
          rw [hkeys, ht.keys_eq hfirst, hh, hlen, ← List.range'_append_1]

theorem last_of_append {s t : Table Nat α} {new : List (Nat × α)}
    (hrows : s.rows = t.rows ++ new) (hne : new ≠ []) : s.last = new.getLast? := by
  rw [last, hrows, List.getLast?_append]
  cases hg : new.getLast? with
  | none => exact absurd (List.getLast?_eq_none_iff.mp hg) hne
  | some row => rfl

theorem first_of_append {s t : Table Nat α} {new : List (Nat × α)} {row : Nat × α}
    (hrows : s.rows = t.rows ++ new) (hfirst : t.first = some row) : s.first = some row := by
  rw [first, hrows, List.head?_append, show t.rows.head? = some row from hfirst]
  rfl

/-- A non-empty prefix starts where the whole does. -/
theorem first_of_prefix {s t : Table Nat α} (h : s.rows <+: t.rows) (hne : s.rows ≠ []) :
    s.first = t.first := by
  obtain ⟨rest, hrest⟩ := h
  rw [first, first, ← hrest, List.head?_append]
  cases hg : s.rows.head? with
  | none => exact absurd (List.head?_eq_none_iff.mp hg) hne
  | some row => rfl

end Table
