/-
An ordered table.

A transactional key-value store hands out its tables as maps from keys to values
that iterate in key order, so the lowest and the highest row are cheap to read.
`Table` is that: a list of rows, strictly increasing in key, with the order as a
field, so that no operation can produce two rows for one key or rows out of
order.

Two views of a table are used.  `get` says what a key holds, and two tables that
agree on every key are equal.  `rows` is the table laid out, and on it the two
writes an append-only store makes are the two simplest things a list can do:
inserting above the highest key puts one row at the end, and dropping every key
from some point up keeps a prefix.

The last section is the write transaction every change of a store goes through:
a body that works on a private copy, installed whole by the commit or not at all.
-/
import Mathlib

/-- Rows in strictly increasing key order. -/
structure Table (κ : Type) [LinearOrder κ] (α : Type) where
  rows : List (κ × α)
  sorted : rows.Pairwise (fun a b => a.1 < b.1)

namespace Table

variable {κ : Type} [LinearOrder κ] {α : Type}

def empty : Table κ α := ⟨[], List.Pairwise.nil⟩

instance : Inhabited (Table κ α) := ⟨empty⟩

@[simp] theorem empty_rows : (empty : Table κ α).rows = [] := rfl

@[ext] theorem ext_rows {s t : Table κ α} (h : s.rows = t.rows) : s = t := by
  cases s; cases t; simp only at h; subst h; rfl

instance [DecidableEq α] : DecidableEq (Table κ α) := fun s t =>
  decidable_of_iff (s.rows = t.rows) ⟨ext_rows, fun h => by rw [h]⟩

/-! ### Reading -/

/-- What the table holds at `k`. -/
def get (t : Table κ α) (k : κ) : Option α := t.rows.lookup k

def first (t : Table κ α) : Option (κ × α) := t.rows.head?

def last (t : Table κ α) : Option (κ × α) := t.rows.getLast?

def len (t : Table κ α) : Nat := t.rows.length

/-- The rows whose keys lie in `[low, high]`, ascending. -/
def range (t : Table κ α) (low high : κ) : List (κ × α) :=
  t.rows.filter fun row => low ≤ row.1 && row.1 ≤ high

@[simp] theorem empty_get (k : κ) : (empty : Table κ α).get k = none := rfl

@[simp] theorem empty_last : (empty : Table κ α).last = none := rfl

@[simp] theorem empty_first : (empty : Table κ α).first = none := rfl

theorem get_eq_some_iff {t : Table κ α} {k : κ} {v : α} :
    t.get k = some v ↔ (k, v) ∈ t.rows := by
  obtain ⟨rows, hs⟩ := t
  show rows.lookup k = some v ↔ (k, v) ∈ rows
  induction rows with
  | nil => simp
  | cons row rest ih =>
      obtain ⟨k', v'⟩ := row
      have hrest := ih (List.Pairwise.of_cons hs)
      have hlow : ∀ r ∈ rest, k' < r.1 := fun r hr => List.rel_of_pairwise_cons hs hr
      rw [List.lookup_cons]
      by_cases hk : k = k'
      · subst hk
        have hnot : (k, v) ∉ rest := fun hm => absurd (hlow _ hm) (lt_irrefl k)
        simp [hnot, eq_comm]
      · have hne : (k == k') = false := by simpa using hk
        simp [hne, hrest, hk]

theorem get_eq_none_iff {t : Table κ α} {k : κ} :
    t.get k = none ↔ ∀ v, (k, v) ∉ t.rows := by
  rw [Option.eq_none_iff_forall_ne_some]
  exact forall_congr' fun v => not_congr get_eq_some_iff

theorem last_mem {t : Table κ α} {row : κ × α} (h : t.last = some row) : row ∈ t.rows :=
  List.mem_of_getLast? h

theorem first_mem {t : Table κ α} {row : κ × α} (h : t.first = some row) : row ∈ t.rows :=
  List.mem_of_head? h

/-- Rows in strictly increasing order are determined by which they are. -/
theorem rows_eq_of_mem {t : Table κ α} {rows : List (κ × α)}
    (hsorted : rows.Pairwise fun a b => a.1 < b.1) (h : ∀ row, row ∈ t.rows ↔ row ∈ rows) :
    t.rows = rows := by
  have hnodup : ∀ {l : List (κ × α)}, l.Pairwise (fun a b => a.1 < b.1) → l.Nodup := fun hl =>
    hl.imp fun hlt heq => absurd hlt (by rw [heq]; exact lt_irrefl _)
  refine List.Perm.eq_of_pairwise ?_ t.sorted hsorted
    ((List.perm_ext_iff_of_nodup (hnodup t.sorted) (hnodup hsorted)).mpr h)
  intro a b _ _ hab hba
  exact absurd (lt_trans hab hba) (lt_irrefl _)

theorem ext_get {s t : Table κ α} (h : ∀ k, s.get k = t.get k) : s = t := by
  refine ext_rows (rows_eq_of_mem t.sorted ?_)
  rintro ⟨k, v⟩
  rw [← get_eq_some_iff, ← get_eq_some_iff, h k]

theorem le_last {t : Table κ α} {row top : κ × α} (hrow : row ∈ t.rows)
    (htop : t.last = some top) : row.1 ≤ top.1 := by
  obtain ⟨front, hfront⟩ := List.getLast?_eq_some_iff.mp htop
  have hs := t.sorted
  rw [hfront] at hrow hs
  rcases List.mem_append.mp hrow with hr | hr
  · exact le_of_lt ((List.pairwise_append.mp hs).2.2 row hr top (by simp))
  · rw [List.mem_singleton.mp hr]

theorem first_le {t : Table κ α} {row low : κ × α} (hrow : row ∈ t.rows)
    (hlow : t.first = some low) : low.1 ≤ row.1 := by
  obtain ⟨rest, hrest⟩ := List.head?_eq_some_iff.mp hlow
  have hs := t.sorted
  rw [hrest] at hrow hs
  rcases List.mem_cons.mp hrow with hr | hr
  · rw [hr]
  · exact le_of_lt (List.rel_of_pairwise_cons hs hr)

theorem last_eq_none_iff {t : Table κ α} : t.last = none ↔ t.rows = [] :=
  List.getLast?_eq_none_iff

theorem first_eq_none_iff {t : Table κ α} : t.first = none ↔ t.rows = [] :=
  List.head?_eq_none_iff

theorem mem_range {t : Table κ α} {low high : κ} {row : κ × α} :
    row ∈ t.range low high ↔ row ∈ t.rows ∧ low ≤ row.1 ∧ row.1 ≤ high := by
  simp [range]

theorem range_sorted (t : Table κ α) (low high : κ) :
    (t.range low high).Pairwise (fun a b => a.1 < b.1) :=
  t.sorted.filter _

/-! ### Inserting

An insertion goes through the rows once.  Above the highest key it adds a row at the
end, which is how stores that only grow use it.
-/

/-- Put `(k, v)` among sorted rows, replacing the row of the same key. -/
def insertRow (k : κ) (v : α) : List (κ × α) → List (κ × α)
  | [] => [(k, v)]
  | (k', v') :: rest =>
      if k < k' then (k, v) :: (k', v') :: rest
      else if k = k' then (k, v) :: rest
      else (k', v') :: insertRow k v rest

theorem mem_insertRow {k : κ} {v : α} {row : κ × α} :
    ∀ {rows : List (κ × α)}, row ∈ insertRow k v rows → row = (k, v) ∨ row ∈ rows := by
  intro rows
  induction rows with
  | nil => intro h; exact Or.inl (by simpa [insertRow] using h)
  | cons r rest ih =>
      obtain ⟨k', v'⟩ := r
      intro h
      unfold insertRow at h
      split at h
      · exact List.mem_cons.mp h
      · split at h
        · rcases List.mem_cons.mp h with hr | hr
          · exact Or.inl hr
          · exact Or.inr (List.mem_cons_of_mem _ hr)
        · rcases List.mem_cons.mp h with hr | hr
          · exact Or.inr (by simp [hr])
          · rcases ih hr with hk | hm
            · exact Or.inl hk
            · exact Or.inr (List.mem_cons_of_mem _ hm)

private theorem insertRow_sorted (k : κ) (v : α) :
    ∀ {rows : List (κ × α)}, rows.Pairwise (fun a b => a.1 < b.1) →
      (insertRow k v rows).Pairwise (fun a b => a.1 < b.1) := by
  intro rows
  induction rows with
  | nil => intro _; simp [insertRow]
  | cons r rest ih =>
      obtain ⟨k', v'⟩ := r
      intro hs
      have hlow : ∀ r ∈ rest, k' < r.1 := fun r hr => List.rel_of_pairwise_cons hs hr
      unfold insertRow
      split
      · rename_i hlt
        refine List.Pairwise.cons (fun r hr => ?_) hs
        rcases List.mem_cons.mp hr with hr | hr
        · rw [hr]; exact hlt
        · exact lt_trans hlt (hlow r hr)
      · rename_i hge
        split
        · rename_i heq
          subst heq
          exact List.Pairwise.cons hlow hs.of_cons
        · rename_i hne
          refine List.Pairwise.cons (fun r hr => ?_) (ih hs.of_cons)
          rcases mem_insertRow hr with hr | hr
          · rw [hr]; exact lt_of_le_of_ne (not_lt.mp hge) (Ne.symm hne)
          · exact hlow r hr

/-- Store `v` at `k`, replacing what was there. -/
def insert (t : Table κ α) (k : κ) (v : α) : Table κ α :=
  ⟨insertRow k v t.rows, insertRow_sorted k v t.sorted⟩

private theorem lookup_cons_if (k k' : κ) (v : α) (rest : List (κ × α)) :
    ((k', v) :: rest).lookup k = if k = k' then some v else rest.lookup k := by
  rw [List.lookup_cons]
  by_cases h : k = k'
  · simp [h]
  · have hf : (k == k') = false := by simpa using h
    simp [hf, h]

theorem get_insert (t : Table κ α) (k k' : κ) (v : α) :
    (t.insert k v).get k' = if k' = k then some v else t.get k' := by
  obtain ⟨rows, hs⟩ := t
  show (insertRow k v rows).lookup k' = if k' = k then some v else rows.lookup k'
  clear hs
  induction rows with
  | nil => rw [insertRow, lookup_cons_if]
  | cons r rest ih =>
      obtain ⟨k₀, v₀⟩ := r
      unfold insertRow
      split
      · rw [lookup_cons_if]
      · split
        · rename_i heq
          subst heq
          rw [lookup_cons_if, lookup_cons_if]
          split <;> rfl
        · rename_i hne
          rw [lookup_cons_if, ih, lookup_cons_if]
          by_cases h₀ : k' = k₀
          · subst h₀
            rw [if_pos rfl, if_neg (Ne.symm hne), if_pos rfl]
          · rw [if_neg h₀, if_neg h₀]

theorem insert_rows_of_last_lt {t : Table κ α} {k : κ} (v : α)
    (h : ∀ row ∈ t.rows, row.1 < k) : (t.insert k v).rows = t.rows ++ [(k, v)] := by
  obtain ⟨rows, hs⟩ := t
  show insertRow k v rows = rows ++ [(k, v)]
  replace h : ∀ row ∈ rows, row.1 < k := h
  clear hs
  induction rows with
  | nil => rfl
  | cons r rest ih =>
      obtain ⟨k', v'⟩ := r
      have hlt : k' < k := h (k', v') (by simp)
      unfold insertRow
      rw [if_neg (not_lt.mpr (le_of_lt hlt)), if_neg (ne_of_gt hlt),
        ih (fun row hrow => h row (List.mem_cons_of_mem _ hrow))]
      rfl

/-- A row under a new key is one row more. -/
theorem insert_rows_perm {t : Table κ α} {k : κ} (v : α) (h : ∀ row ∈ t.rows, row.1 ≠ k) :
    (t.insert k v).rows.Perm ((k, v) :: t.rows) := by
  obtain ⟨rows, hs⟩ := t
  show (insertRow k v rows).Perm ((k, v) :: rows)
  replace h : ∀ row ∈ rows, row.1 ≠ k := h
  clear hs
  induction rows with
  | nil => exact List.Perm.refl _
  | cons r rest ih =>
      obtain ⟨k', v'⟩ := r
      have hne : k ≠ k' := Ne.symm (h (k', v') (by simp))
      unfold insertRow
      by_cases hlt : k < k'
      · rw [if_pos hlt]
      · rw [if_neg hlt, if_neg hne]
        have hrest := ih fun row hrow => h row (List.mem_cons_of_mem _ hrow)
        exact (hrest.cons (k', v')).trans (List.Perm.swap _ _ _)

/-! ### Dropping rows -/

/-- Keep the rows `keep` accepts. -/
def retain (t : Table κ α) (keep : κ → α → Bool) : Table κ α :=
  ⟨t.rows.filter fun row => keep row.1 row.2, t.sorted.filter _⟩

@[simp] theorem retain_rows (t : Table κ α) (keep : κ → α → Bool) :
    (t.retain keep).rows = t.rows.filter fun row => keep row.1 row.2 := rfl

theorem get_retain (t : Table κ α) (keep : κ → α → Bool) (k : κ) :
    (t.retain keep).get k = (t.get k).filter (keep k) := by
  refine Option.ext fun v => ?_
  rw [Option.filter_eq_some_iff]
  show (t.retain keep).get k = some v ↔ t.get k = some v ∧ keep k v = true
  rw [get_eq_some_iff, get_eq_some_iff, retain_rows, List.mem_filter]

theorem retain_lt_prefix (t : Table κ α) (cut : κ) :
    (t.retain fun k _ => k < cut).rows <+: t.rows := by
  obtain ⟨rows, hs⟩ := t
  show (rows.filter fun row => decide (row.1 < cut)) <+: rows
  induction rows with
  | nil => simp
  | cons r rest ih =>
      by_cases hr : r.1 < cut
      · rw [List.filter_cons_of_pos (by simpa using hr)]
        exact (List.prefix_cons_inj r).mpr (ih hs.of_cons)
      · have hnone : (rest.filter fun row => decide (row.1 < cut)) = [] := by
          rw [List.filter_eq_nil_iff]
          intro row hrow hlt
          have hlow := List.rel_of_pairwise_cons hs hrow
          exact hr (lt_trans hlow (by simpa using hlt))
        rw [List.filter_cons_of_neg (by simpa using hr), hnone]
        exact List.nil_prefix

/-- Keeping the keys below the highest one drops the highest row. -/
theorem retain_lt_last {t : Table κ α} {top : κ × α} (h : t.last = some top) :
    (t.retain fun k _ => k < top.1).rows = t.rows.dropLast := by
  obtain ⟨front, hfront⟩ := List.getLast?_eq_some_iff.mp h
  have hs := t.sorted
  rw [hfront] at hs
  have hbelow : ∀ row ∈ front, row.1 < top.1 := fun row hrow =>
    (List.pairwise_append.mp hs).2.2 row hrow top (by simp)
  rw [retain_rows, hfront, List.dropLast_concat, List.filter_append,
    List.filter_eq_self.mpr fun row hrow => by simpa using hbelow row hrow]
  simp

end Table

/-! ### Write transactions

A body changes its private copy as it goes and may fail part-way, with the copy
half written.  What it returns is the copy as it stands then, and how it ended:
an error, or whether the commit was reached.
-/

/-- Run a write transaction: the copy is installed only by a commit. -/
def runTxn {σ ε : Type} (db : σ) (body : σ → σ × Except ε Bool) : σ × Except ε Unit :=
  match body db with
  | (_, .error e) => (db, .error e)
  | (_, .ok false) => (db, .ok ())
  | (copy, .ok true) => (copy, .ok ())

theorem runTxn_error {σ ε : Type} {db : σ} {body : σ → σ × Except ε Bool} {e : ε}
    (h : (runTxn db body).2 = .error e) : (runTxn db body).1 = db := by
  revert h
  unfold runTxn
  split
  · intro _; rfl
  · intro h; simp at h
  · intro h; simp at h
