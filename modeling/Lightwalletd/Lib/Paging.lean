/-
Reading an ordered list in pages.

A page is as much as fits of what has at least a given key, and the next page starts at
the key the last one ended with.  A key is not a place: a page may end in the middle of
those that share its last key, and the next one then reads them again from the first.  As
long as no key is shared by a whole page the last key is past the first, and that is all
it takes: the key goes up, what lies below it has been read, and the list ends.
-/
import Lightwalletd.Lib.Result

namespace Paging

variable {α ε : Type} (key : α → Nat) (size : Nat)

/-- What has at least the given key. -/
def matching (l : List α) (start : Nat) : List α := l.filter fun a => start ≤ key a

/-- What is read of it at once. -/
def page (l : List α) (start : Nat) : List α := (matching key l start).take size

/-- Read pages, each with the key it was asked for, until one is not full; `none` if that
takes more than `fuel` of them. -/
def read (fetch : Nat → Except ε (List α)) :
    Nat → Nat → Option (Except ε (List (Nat × List α)))
  | 0, _ => none
  | fuel + 1, start =>
      match fetch start with
      | .error e => some (.error e)
      | .ok page =>
          if page.length < size then some (.ok [(start, page)])
          else
            match page.getLast? with
            | none => some (.ok [(start, page)])
            | some last =>
                (read fetch fuel (key last)).map fun rest => rest.map ((start, page) :: ·)

/-- The pages put together: of each the part that the next one does not read again. -/
def joined : List (Nat × List α) → List α
  | [] => []
  | [(_, page)] => page
  | (_, page) :: (next, page') :: rest =>
      (page.filter fun a => key a < next) ++ joined ((next, page') :: rest)

variable {key size} {l : List α}

theorem mem_matching {start : Nat} {a : α} : a ∈ matching key l start ↔ a ∈ l ∧ start ≤ key a := by
  rw [matching, List.mem_filter, decide_eq_true_iff]

theorem mem_of_mem_joined {a : α} : ∀ {pages : List (Nat × List α)}, a ∈ joined key pages →
    ∃ asked ∈ pages, a ∈ asked.2
  | [], h => absurd h List.not_mem_nil
  | [asked], h => ⟨asked, List.mem_singleton_self _, h⟩
  | asked :: asked' :: rest, h => by
      rcases List.mem_append.mp h with hin | hin
      · exact ⟨asked, List.mem_cons_self, List.mem_of_mem_filter hin⟩
      · obtain ⟨found, hfound, ha⟩ := mem_of_mem_joined hin
        exact ⟨found, List.mem_cons_of_mem _ hfound, ha⟩

/-- An ordered list is what lies below a key and then the rest. -/
private theorem filter_lt_append (hsorted : l.Pairwise fun a b => key a ≤ key b) (k : Nat) :
    (l.filter fun a => key a < k) ++ matching key l k = l := by
  induction l with
  | nil => rfl
  | cons a l ih =>
      obtain ⟨hfirst, hrest⟩ := List.pairwise_cons.mp hsorted
      unfold matching at ih ⊢
      by_cases hlow : key a < k
      · rw [List.filter_cons_of_pos (by simpa using hlow), List.filter_cons_of_neg
          (by simpa using hlow), List.cons_append, ih hrest]
      · have hhigh : ∀ b ∈ a :: l, k ≤ key b := by
          intro b hb
          rcases List.mem_cons.mp hb with rfl | hb
          · exact Nat.not_lt.mp hlow
          · exact (Nat.not_lt.mp hlow).trans (hfirst b hb)
        rw [List.filter_eq_nil_iff.mpr fun b hb => by simpa using hhigh b hb,
          List.filter_eq_self.mpr fun b hb => by simpa using hhigh b hb, List.nil_append]

theorem fetch_of_mem_read {fetch : Nat → Except ε (List α)} :
    ∀ {fuel start : Nat} {pages : List (Nat × List α)},
      read key size fetch fuel start = some (.ok pages) →
        ∀ asked ∈ pages, fetch asked.1 = .ok asked.2 := by
  intro fuel
  induction fuel with
  | zero => exact fun h => absurd h (by simp [read])
  | succ fuel ih =>
      intro start pages h
      unfold read at h
      rcases hfetch : fetch start with e | page
      · simp [hfetch] at h
      simp only [hfetch] at h
      by_cases hshort : page.length < size
      · rw [if_pos hshort, Option.some.injEq, Except.ok.injEq] at h
        rw [← h]
        exact List.forall_mem_singleton.mpr hfetch
      rw [if_neg hshort] at h
      rcases hlast : page.getLast? with _ | last
      · rw [hlast, Option.some.injEq, Except.ok.injEq] at h
        rw [← h]
        exact List.forall_mem_singleton.mpr hfetch
      simp only [hlast, Option.map_eq_some_iff, Except.map_eq_ok] at h
      obtain ⟨read, hrest, rest, rfl, rfl⟩ := h
      exact List.forall_mem_cons.mpr ⟨hfetch, ih hrest⟩

theorem matching_matching {start k : Nat} (h : start ≤ k) :
    matching key (matching key l start) k = matching key l k := by
  unfold matching
  rw [List.filter_filter]
  refine List.filter_congr fun a _ => ?_
  by_cases hk : k ≤ key a
  · simp [hk, h.trans hk]
  · simp [hk]

section

variable (hsorted : l.Pairwise fun a b => key a ≤ key b)
include hsorted

private theorem page_below {start : Nat} {last : α}
    (hlast : (page key size l start).getLast? = some last) :
    ((page key size l start).filter fun a => key a < key last)
      = (matching key l start).filter fun a => key a < key last := by
  have hparts := List.take_append_drop size (matching key l start)
  have hordered : (matching key l start).Pairwise fun a b => key a ≤ key b := hsorted.filter _
  rw [← hparts] at hordered
  have hrest : ((matching key l start).drop size).filter (fun a => key a < key last) = [] := by
    refine List.filter_eq_nil_iff.mpr fun b hb => ?_
    simpa using (List.pairwise_append.mp hordered).2.2 last (List.mem_of_getLast? hlast) b hb
  conv_rhs => rw [← hparts, List.filter_append, hrest, List.append_nil]
  rfl

/-- If no key fills a page, a full page has a key below its last one. -/
private theorem page_raises (hshared : ∀ k, l.countP (fun a => key a = k) < size)
    {start : Nat} {last : α}
    (hfull : (page key size l start).length = size)
    (hlast : (page key size l start).getLast? = some last) :
    ∃ first ∈ matching key l start, key first < key last := by
  by_contra hnone
  have hordered : (page key size l start).Pairwise fun a b => key a ≤ key b :=
    (hsorted.filter _).sublist (List.take_sublist _ _)
  obtain ⟨front, hfront⟩ := List.getLast?_eq_some_iff.mp hlast
  have hsame : ∀ a ∈ page key size l start, key a = key last := by
    intro a ha
    refine Nat.le_antisymm ?_ (Nat.not_lt.mp fun hlt => hnone ⟨a, List.mem_of_mem_take ha, hlt⟩)
    rw [hfront] at ha hordered
    rcases List.mem_append.mp ha with hin | hin
    · exact (List.pairwise_append.mp hordered).2.2 a hin last (List.mem_singleton_self _)
    · rw [List.mem_singleton.mp hin]
  have hcount : (page key size l start).countP (fun a => key a = key last) = size := by
    rw [List.countP_eq_length.mpr fun a ha => decide_eq_true (hsame a ha), hfull]
  have hle : (page key size l start).countP (fun a => key a = key last)
      ≤ l.countP (fun a => key a = key last) :=
    ((List.take_sublist _ _).trans List.filter_sublist).countP_le
  exact absurd (hshared (key last)) (by omega)

/-- Reading ends, and what it puts together is everything that matches. -/
theorem read_matching (hshared : ∀ k, l.countP (fun a => key a = k) < size)
    {fetch : Nat → Except ε (List α)}
    (hfetch : ∀ start, fetch start = .ok (page key size l start)) :
    ∀ {fuel start : Nat}, (matching key l start).length < fuel →
      ∃ pages, read key size fetch fuel start = some (.ok pages) ∧
        (pages.map Prod.fst).head? = some start ∧ (pages.map Prod.fst).IsChain (· < ·) ∧
        joined key pages = matching key l start ∧
        ∀ asked ∈ pages, start ≤ asked.1 := by
  intro fuel
  induction fuel with
  | zero => exact fun h => absurd h (Nat.not_lt_zero _)
  | succ fuel ih =>
      intro start hfuel
      unfold read
      simp only [hfetch]
      by_cases hfull : (page key size l start).length < size
      · have hall : page key size l start = matching key l start := by
          rw [page, List.length_take] at hfull
          exact List.take_of_length_le (by omega)
        rw [if_pos hfull]
        refine ⟨_, rfl, rfl, List.isChain_singleton _, hall, fun asked hasked => ?_⟩
        rw [List.mem_singleton.mp hasked]
      have hlength : (page key size l start).length = size := by
        rw [page, List.length_take] at hfull ⊢
        omega
      have hsize : page key size l start ≠ [] := by
        intro hnil
        rw [hnil, List.length_nil] at hlength
        exact absurd (hshared 0) (by omega)
      rw [if_neg hfull]
      obtain ⟨last, hlast⟩ := Option.ne_none_iff_exists'.mp (mt List.getLast?_eq_none_iff.mp hsize)
      obtain ⟨first, hfirst, hraise⟩ := page_raises hsorted hshared hlength hlast
      have hup : start < key last := (mem_matching.mp hfirst).2.trans_lt hraise
      have hless : (matching key l (key last)).length < (matching key l start).length := by
        rw [← matching_matching hup.le]
        exact List.length_filter_lt_length_iff_exists.mpr ⟨first, hfirst, by simpa using hraise⟩
      obtain ⟨rest, hread, hhead, hchain, hjoined, hasked⟩ :=
        @ih (key last) (by omega)
      refine ⟨(start, page key size l start) :: rest, ?_, rfl, ?_, ?_, ?_⟩
      · rw [hlast]
        simp only [hread]
        rfl
      · rw [List.map_cons, List.isChain_cons]
        refine ⟨fun next hnext => ?_, hchain⟩
        rw [hhead] at hnext
        exact Option.some.inj hnext ▸ hup
      · rcases rest with _ | ⟨⟨next, page'⟩, rest⟩
        · cases hhead
        obtain rfl : next = key last := Option.some.inj hhead
        rw [joined, hjoined, page_below hsorted hlast, ← matching_matching hup.le]
        exact filter_lt_append (hsorted.filter _) _
      · intro asked hin
        rcases List.mem_cons.mp hin with rfl | hin
        · exact Nat.le_refl _
        · exact hup.le.trans (hasked asked hin)

end

example : read id 2 (fun start => (.ok (page id 2 [1, 2, 3] start) : Except Unit (List Nat))) 4 0
    = some (.ok [(0, [1, 2]), (2, [2, 3]), (3, [3])]) := rfl

end Paging
