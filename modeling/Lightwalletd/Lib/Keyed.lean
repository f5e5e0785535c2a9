/-
A list of entries that carry their own keys, as a map from the keys.

An entry is put in by dropping what has its key and adding it at the end, so that no key
is there twice, and entries are looked for and dropped by going through the list.
`Lists` relates such a list to the map it stands for; it is kept by each operation, with
the map updated the way its reader would.
-/
import Mathlib

namespace Lightwalletd

namespace Keyed

variable {α κ : Type} [DecidableEq κ] (key : α → κ)

/-- Put an entry in, in place of any other with its key. -/
def put (entries : List α) (entry : α) : List α :=
  entries.filter (fun other => key other ≠ key entry) ++ [entry]

/-- The list has the entries of the map. -/
structure Lists (entries : List α) (map : κ → Option α) : Prop where
  distinct : entries.Pairwise fun a b => key a ≠ key b
  mem_iff : ∀ entry, entry ∈ entries ↔ map (key entry) = some entry
  key_eq : ∀ k entry, map k = some entry → key entry = k

namespace Lists

variable {key} {entries : List α} {map : κ → Option α}

omit [DecidableEq κ] in
theorem nil : Lists key [] fun _ => none :=
  ⟨List.Pairwise.nil, fun _ => by simp, fun _ _ h => by cases h⟩

omit [DecidableEq κ] in
theorem filter (h : Lists key entries map) (keep : α → Bool) :
    Lists key (entries.filter keep) fun k => (map k).filter keep := by
  refine ⟨h.distinct.filter _, fun entry => ?_, fun k entry hentry => ?_⟩
  · rw [List.mem_filter, h.mem_iff, Option.filter_eq_some_iff]
  · exact h.key_eq k entry (Option.filter_eq_some_iff.mp hentry).1

theorem erase (h : Lists key entries map) (k : κ) :
    Lists key (entries.filter fun entry => key entry ≠ k) (Function.update map k none) := by
  have hkept := h.filter fun entry => key entry ≠ k
  have heq : (fun k' => (map k').filter fun entry => decide (key entry ≠ k))
      = Function.update map k none := by
    refine funext fun k' => Option.ext fun entry => ?_
    rw [Option.filter_eq_some_iff, decide_eq_true_iff]
    by_cases hk : k' = k
    · subst hk
      rw [Function.update_self]
      constructor
      · rintro ⟨hentry, hne⟩
        exact absurd (h.key_eq _ _ hentry) hne
      · intro hnone
        cases hnone
    · rw [Function.update_of_ne hk]
      constructor
      · exact And.left
      · intro hentry
        exact ⟨hentry, by rw [h.key_eq _ _ hentry]; exact hk⟩
  rw [← heq]
  exact hkept

theorem put (h : Lists key entries map) (entry : α) :
    Lists key (Keyed.put key entries entry) (Function.update map (key entry) (some entry)) := by
  have hrest := h.erase (key entry)
  refine ⟨?_, fun other => ?_, fun k other hother => ?_⟩
  · refine List.pairwise_append.mpr ⟨hrest.distinct, List.pairwise_singleton _ _, ?_⟩
    intro other hother last hlast
    obtain rfl := List.mem_singleton.mp hlast
    exact of_decide_eq_true (List.mem_filter.mp hother).2
  · rw [Keyed.put, List.mem_append, List.mem_singleton, hrest.mem_iff]
    by_cases hkey : key other = key entry
    · rw [hkey, Function.update_self, Function.update_self]
      simp [eq_comm]
    · rw [Function.update_of_ne hkey, Function.update_of_ne hkey]
      have hne : other ≠ entry := fun heq => hkey (congrArg key heq)
      simp [hne]
  · by_cases hk : k = key entry
    · rw [hk, Function.update_self] at hother
      obtain rfl := Option.some.inj hother
      exact hk.symm
    · rw [Function.update_of_ne hk] at hother
      exact h.key_eq k other hother

/-- The entry under a key is what the map has there. -/
theorem find?_key (h : Lists key entries map) (k : κ) :
    entries.find? (fun entry => key entry = k) = map k := by
  rcases hmap : map k with _ | entry
  · refine List.find?_eq_none.mpr fun entry hentry hkey => ?_
    rw [h.mem_iff, of_decide_eq_true hkey, hmap] at hentry
    cases hentry
  · obtain rfl := h.key_eq k entry hmap
    rcases hfind : entries.find? fun other => key other = key entry with _ | found
    · have hnone := List.find?_eq_none.mp hfind entry ((h.mem_iff entry).mpr hmap)
      exact absurd (decide_eq_true rfl) hnone
    · have hkey : key found = key entry := by simpa using List.find?_some hfind
      have hfound := (h.mem_iff found).mp (List.mem_of_find?_eq_some hfind)
      rw [hkey, hmap] at hfound
      exact hfound.symm

omit [DecidableEq κ] in
/-- A search by anything else finds an entry of the map, if there is one. -/
theorem find?_cases (h : Lists key entries map) (p : α → Bool) :
    (∃ entry, entries.find? p = some entry ∧ p entry = true ∧ map (key entry) = some entry) ∨
    entries.find? p = none ∧ ∀ k entry, map k = some entry → p entry = false := by
  rcases hfind : entries.find? p with _ | found
  · refine Or.inr ⟨rfl, fun k entry hentry => ?_⟩
    have hin : entry ∈ entries := by
      rw [h.mem_iff, h.key_eq k entry hentry]
      exact hentry
    exact Bool.eq_false_iff.mpr (List.find?_eq_none.mp hfind entry hin)
  · exact Or.inl ⟨found, rfl, List.find?_some hfind,
      (h.mem_iff found).mp (List.mem_of_find?_eq_some hfind)⟩

end Lists

end Keyed

end Lightwalletd
