/-
Recovering a corrupt cache.

The light check looks at the two ends of the block table and at the number of its
rows; the localization scans up for a hole and, without one, walks down from the
tip.  Both say the same thing of any table: `lowestCorruptHeight_cases` gives what
a failed check leads to, a hole with nothing missing below it, or the bottom of a
bad suffix of a segment.

Cutting there leaves a segment in the first case and a segment with a good tip in
the second, so two rounds are enough.  The one exception is the cut at height zero:
the recovery keeps everything up to the height below the corrupt one, which at
height zero is zero itself.  A bad row there survives every round.
-/
import Lightwalletd.Proofs.Convergence

namespace Lightwalletd

namespace Cache

variable [Prost] {cache : Cache}

/-! ### What the light check sees

It compares the number of rows with the heights they span and decodes the tip.  A row in
the middle can be bad without its noticing.
-/

/-- There is a row at this height. -/
def Present (cache : Cache) (height : Nat) : Prop := (cache.blocks.get height).isSome = true

/-- A height between the ends of the cache that is missing, undecodable or mis-keyed. -/
def Corrupt (cache : Cache) (height : Nat) : Prop :=
  ∃ first last, cache.range = some (first, last) ∧ first ≤ height ∧ height ≤ last ∧
    cache.goodRow height = false

theorem present_of_goodRow {height : Nat} (h : cache.goodRow height = true) :
    cache.Present height := by
  unfold goodRow at h
  unfold Present
  split at h
  · next value hget => rw [hget]; rfl
  · cases h

/-- The light check passes when the tip is good and the rows are as many as the heights. -/
theorem validateLight_eq_ok_iff {first last : Nat} {v w : Bytes}
    (hfirst : cache.blocks.first = some (first, v)) (hlast : cache.blocks.last = some (last, w)) :
    cache.validateLight = .ok () ↔
      cache.goodRow last = true ∧ cache.blocks.len = last - first + 1 := by
  have hget : cache.blocks.get last = some w := Table.get_eq_some_iff.mpr (Table.last_mem hlast)
  unfold validateLight goodRow
  rw [hfirst, hlast, hget]
  rcases hdecode : Prost.decode w with e | tip
  · simp [hdecode]
  · by_cases hheight : tip.height = last
    · by_cases hlen : cache.blocks.len = last - first + 1 <;> simp [hdecode, hheight, hlen]
    · simp [hdecode, hheight]

theorem validateLight_of_empty (h : cache.blocks.rows = []) : cache.validateLight = .ok () := by
  have hlast : cache.blocks.last = none := Table.last_eq_none_iff.mpr h
  unfold validateLight
  rw [hlast]
  split
  · next h' => cases h'
  · rfl

/-- What a failed check says: the ends of the table, and a gap or a bad tip. -/
theorem validateLight_error {e : CacheError} (h : cache.validateLight = .error e) :
    ∃ first last v w, cache.blocks.first = some (first, v) ∧
      cache.blocks.last = some (last, w) ∧
      (cache.goodRow last = false ∨ ¬ cache.blocks.Contiguous) := by
  rcases hlast : cache.blocks.last with _ | ⟨last, w⟩
  · rw [validateLight_of_empty (Table.last_eq_none_iff.mp hlast)] at h
    cases h
  · rcases hfirst : cache.blocks.first with _ | ⟨first, v⟩
    · rw [validateLight_of_empty (Table.first_eq_none_iff.mp hfirst)] at h
      cases h
    · refine ⟨first, last, v, w, rfl, rfl, ?_⟩
      by_contra hcon
      push Not at hcon
      obtain ⟨hgood, hseg⟩ := hcon
      have hok : cache.validateLight = .ok () := (validateLight_eq_ok_iff hfirst hlast).mpr
        ⟨by simpa using hgood, (hseg.last_key hfirst hlast).2⟩
      rw [hok] at h
      cases h

/-- On a segment the check is about the tip alone. -/
theorem validateLight_of_segment {first last : Nat} {v w : Bytes}
    (hfirst : cache.blocks.first = some (first, v)) (hlast : cache.blocks.last = some (last, w))
    (hseg : cache.blocks.Contiguous) (hgood : cache.goodRow last = true) :
    cache.validateLight = .ok () :=
  (validateLight_eq_ok_iff hfirst hlast).mpr ⟨hgood, (hseg.last_key hfirst hlast).2⟩

/-! ### Where the localization lands

If rows are missing it finds the lowest hole, and otherwise walks down from the tip
while rows are bad.
-/

/-- The walk stops above the highest good row, or at the lowest row if none is good. -/
theorem walkDown_cases (cache : Cache) (first last above : Nat) :
    (∃ good, first ≤ good ∧ good ≤ first + above ∧ cache.goodRow good = true ∧
      (∀ k, good < k → k ≤ first + above → cache.goodRow k = false) ∧
      cache.walkDown first last above = if good < last then some (good + 1) else none) ∨
    ((∀ k, first ≤ k → k ≤ first + above → cache.goodRow k = false) ∧
      cache.walkDown first last above = some first) := by
  induction above with
  | zero =>
      by_cases hgood : cache.goodRow first = true
      · refine Or.inl ⟨first, Nat.le_refl _, Nat.le_refl _, hgood, ?_, by simp [walkDown, hgood]⟩
        intro k hk hk'
        omega
      · refine Or.inr ⟨?_, by simp [walkDown, hgood]⟩
        intro k hk hk'
        obtain rfl : k = first := by omega
        simpa using hgood
  | succ above ih =>
      by_cases hgood : cache.goodRow (first + above + 1) = true
      · refine Or.inl ⟨first + above + 1, by omega, Nat.le_refl _, hgood, ?_,
          by simp [walkDown, hgood]⟩
        intro k hk hk'
        omega
      · have hstep : cache.walkDown first last (above + 1) = cache.walkDown first last above := by
          simp [walkDown, hgood]
        have htop : ∀ k, k = first + above + 1 → cache.goodRow k = false := by
          intro k hk
          rw [hk]
          simpa using hgood
        rw [hstep]
        rcases ih with ⟨good, hlow, hhigh, hg, hbad, hres⟩ | ⟨hbad, hres⟩
        · refine Or.inl ⟨good, hlow, by omega, hg, ?_, hres⟩
          intro k hk hk'
          rcases Nat.lt_or_ge (first + above) k with h | h
          · exact htop k (by omega)
          · exact hbad k hk h
        · refine Or.inr ⟨?_, hres⟩
          intro k hk hk'
          rcases Nat.lt_or_ge (first + above) k with h | h
          · exact htop k (by omega)
          · exact hbad k hk h

/-- A hole above the lowest row, with no other below it. -/
structure LowestHole (cache : Cache) (first last corrupt : Nat) : Prop where
  above : first < corrupt
  below : corrupt ≤ last
  missing : ¬ cache.Present corrupt
  filled : ∀ k, first ≤ k → k < corrupt → cache.Present k

/-- The bottom of the bad suffix of a segment. -/
structure BadSuffix (cache : Cache) (first last corrupt : Nat) : Prop where
  above : first ≤ corrupt
  below : corrupt ≤ last
  segment : cache.blocks.Contiguous
  bad : ∀ k, corrupt ≤ k → k ≤ last → cache.goodRow k = false
  stop : corrupt = first ∨ (first < corrupt ∧ cache.goodRow (corrupt - 1) = true)

/-- What the localization finds once the check has failed. -/
theorem lowestCorruptHeight_cases {e : CacheError} (h : cache.validateLight = .error e) :
    ∃ first last v w corrupt, cache.blocks.first = some (first, v) ∧
      cache.blocks.last = some (last, w) ∧ cache.lowestCorruptHeight = some corrupt ∧
      (LowestHole cache first last corrupt ∨ BadSuffix cache first last corrupt) := by
  obtain ⟨first, last, v, w, hfirst, hlast, hbad⟩ := validateLight_error h
  have hle : first ≤ last := Table.first_le (Table.last_mem hlast) hfirst
  by_cases hlen : cache.blocks.len = last - first + 1
  · -- No gap: the tip is bad and the walk goes down from it.
    have hseg := Table.contiguous_of_len hfirst hlast hlen
    have htip : cache.goodRow last = false := hbad.resolve_right (fun hn => hn hseg)
    have heq : cache.lowestCorruptHeight = cache.walkDown first last (last - first) := by
      simp [lowestCorruptHeight, hfirst, hlast, hlen]
    have hsum : first + (last - first) = last := by omega
    have hwalk := walkDown_cases cache first last (last - first)
    rw [hsum] at hwalk
    rcases hwalk with ⟨good, hlow, hhigh, hg, habove, hres⟩ | ⟨hall, hres⟩
    · have hlt : good < last := by
        refine lt_of_le_of_ne hhigh ?_
        intro hc
        rw [hc, htip] at hg
        cases hg
      rw [if_pos hlt] at hres
      refine ⟨first, last, v, w, good + 1, hfirst, hlast, heq.trans hres, Or.inr ?_⟩
      exact ⟨by omega, hlt, hseg, fun k hk hk' => habove k hk hk', Or.inr ⟨by omega, hg⟩⟩
    · refine ⟨first, last, v, w, first, hfirst, hlast, heq.trans hres, Or.inr ?_⟩
      exact ⟨Nat.le_refl _, hle, hseg, hall, Or.inl rfl⟩
  · -- Fewer rows than heights: some height is missing, and the scan finds the lowest.
    have hgap : ¬ cache.blocks.Contiguous := fun hseg => hlen (hseg.last_key hfirst hlast).2
    rcases hfind : (List.range' first (last + 1 - first)).find?
        (fun height => (cache.blocks.get height).isNone) with _ | corrupt
    · refine absurd (Table.contiguous_of_closed hfirst hlast ?_) hgap
      intro k hlow hhigh
      have hk := List.find?_eq_none.mp hfind k (List.mem_range'_1.mpr ⟨hlow, by omega⟩)
      exact Table.get_isSome_iff_mem_keys.mp (Option.isSome_iff_ne_none.mpr (by simpa using hk))
    · have heq : cache.lowestCorruptHeight = some corrupt := by
        simp [lowestCorruptHeight, hfirst, hlast, hlen, hfind]
      obtain ⟨hnone, before, after, hsplit, hbefore⟩ := List.find?_eq_some_iff_append.mp hfind
      obtain ⟨hlow, hhigh⟩ := List.mem_range'_1.mp (List.mem_of_find?_eq_some hfind)
      have hmissing : ¬ cache.Present corrupt := by
        unfold Present
        simpa using hnone
      have hfilled : ∀ k, first ≤ k → k < corrupt → cache.Present k := by
        intro k hk hlt
        have hmem : k ∈ before ++ corrupt :: after := by
          rw [← hsplit]
          exact List.mem_range'_1.mpr ⟨hk, by omega⟩
        have hsorted : (before ++ corrupt :: after).Pairwise (· < ·) := by
          rw [← hsplit]
          exact List.pairwise_lt_range'
        rcases List.mem_append.mp hmem with hk' | hk'
        · have := hbefore k hk'
          unfold Present
          simpa using this
        · -- Nothing after the hole is lower than it.
          rcases List.mem_cons.mp hk' with rfl | hk''
          · omega
          · have := List.rel_of_pairwise_cons (List.pairwise_append.mp hsorted).2.1 hk''
            omega
      have hne : first ≠ corrupt := by
        rintro rfl
        refine hmissing ?_
        unfold Present
        rw [Table.get_eq_some_iff.mpr (Table.first_mem hfirst)]
        rfl
      exact ⟨first, last, v, w, corrupt, hfirst, hlast, heq,
        Or.inl ⟨by omega, by omega, hmissing, hfilled⟩⟩

private theorem corrupt_of_cases {first last corrupt : Nat} {v w : Bytes}
    (hfirst : cache.blocks.first = some (first, v)) (hlast : cache.blocks.last = some (last, w))
    (h : LowestHole cache first last corrupt ∨ BadSuffix cache first last corrupt) :
    cache.Corrupt corrupt := by
  have hrange : cache.range = some (first, last) := by simp [range, hfirst, hlast]
  rcases h with hhole | hsuffix
  · refine ⟨first, last, hrange, Nat.le_of_lt hhole.above, hhole.below, ?_⟩
    by_contra hgood
    exact hhole.missing (present_of_goodRow (by simpa using hgood))
  · exact ⟨first, last, hrange, hsuffix.above, hsuffix.below,
      hsuffix.bad corrupt (Nat.le_refl _) hsuffix.below⟩

/-! ### What a cut leaves

After a cut at a hole there is no hole; after a cut at the bottom of a bad suffix the
tip is good.
-/

section Cut

variable {cut : Nat} {base : Option Nat}

theorem truncated_goodRow (height : Nat) :
    (cache.truncated cut base).goodRow height
      = if height < cut then cache.goodRow height else false := by
  unfold goodRow
  rw [truncated_get]
  by_cases h : height < cut
  · simp only [h, if_true]
  · simp only [h, if_false]

omit [Prost] in
theorem truncated_present {height : Nat} :
    (cache.truncated cut base).Present height ↔ height < cut ∧ cache.Present height := by
  unfold Present
  rw [truncated_get]
  by_cases h : height < cut <;> simp [h]

omit [Prost] in
/-- Cutting above a row that is present keeps the lower end, and that row is the tip. -/
theorem truncated_ends (base : Option Nat) {first : Nat} {v : Bytes}
    (hfirst : cache.blocks.first = some (first, v)) (hcut : first < cut)
    (hpresent : cache.Present (cut - 1)) :
    (cache.truncated cut base).blocks.first = some (first, v) ∧
      ∃ w, (cache.truncated cut base).blocks.last = some (cut - 1, w) := by
  have hkept : (cache.truncated cut base).Present (cut - 1) :=
    truncated_present.mpr ⟨by omega, hpresent⟩
  obtain ⟨x, hx⟩ := Option.isSome_iff_exists.mp hkept
  have hmem := Table.get_eq_some_iff.mp hx
  refine ⟨?_, ?_⟩
  · rw [Table.first_of_prefix (prefix_truncated cache cut base) (List.ne_nil_of_mem hmem)]
    exact hfirst
  · rcases hlast : (cache.truncated cut base).blocks.last with _ | ⟨last, w⟩
    · rw [Table.last_eq_none_iff.mp hlast] at hmem
      cases hmem
    · have hle : cut - 1 ≤ last := Table.le_last hmem hlast
      have hlt : last < cut := by
        simpa using (List.mem_filter.mp (Table.last_mem hlast)).2
      exact ⟨w, by rw [show last = cut - 1 by omega]⟩

omit [Prost] in
theorem LowestHole.truncated {first last : Nat} {v : Bytes} (h : LowestHole cache first last cut)
    (hfirst : cache.blocks.first = some (first, v)) :
    (cache.truncated cut base).blocks.Contiguous := by
  have hcut := h.above
  obtain ⟨hfirst', w, hlast'⟩ := truncated_ends base hfirst hcut
    (h.filled (cut - 1) (by omega) (by omega))
  refine Table.contiguous_of_closed hfirst' hlast' ?_
  intro k hlow hhigh
  have hkept : (cache.truncated cut base).Present k :=
    truncated_present.mpr ⟨by omega, h.filled k hlow (by omega)⟩
  exact Table.get_isSome_iff_mem_keys.mp hkept

omit [Prost] in
private theorem truncated_at_first {first : Nat} {v : Bytes}
    (hfirst : cache.blocks.first = some (first, v)) :
    (cache.truncated first base).blocks.rows = [] := by
  refine List.filter_eq_nil_iff.mpr ?_
  intro row hrow hlt
  have hle : first ≤ row.1 := Table.first_le hrow hfirst
  have hlt' : row.1 < first := by simpa using hlt
  omega

/-- Cutting at the bottom of a bad suffix leaves a cache the check accepts. -/
theorem BadSuffix.truncated {first last : Nat} {v : Bytes} (h : BadSuffix cache first last cut)
    (hfirst : cache.blocks.first = some (first, v)) :
    (cache.truncated cut base).validateLight = .ok () := by
  rcases h.stop with heq | ⟨hlt, hgood⟩
  · rw [heq]
    exact validateLight_of_empty (truncated_at_first hfirst)
  · obtain ⟨hfirst', w, hlast'⟩ := truncated_ends base hfirst hlt
      (present_of_goodRow hgood)
    refine validateLight_of_segment hfirst' hlast'
      (h.segment.of_prefix (prefix_truncated cache cut base)) ?_
    rw [truncated_goodRow, if_pos (by omega), hgood]

end Cut

end Cache

/-! ### Rounds of recovery -/

section

variable [Prost] {cache : Cache}

/-- One round: the check, and the recovery if it fails. -/
def recoveryRound (cache : Cache) : Cache := (openTimeCheck cache).1

/-- The caches recovery is asked to work on: any rows at heights below the largest
word, under a base height that can be read. -/
structure Recoverable (cache : Cache) : Prop where
  readable : Readable cache
  below : ∀ row ∈ cache.blocks.rows, row.1 < u64Max

theorem recoveryRound_of_ok (h : cache.validateLight = .ok ()) : recoveryRound cache = cache := by
  simp only [recoveryRound, openTimeCheck, h]

/-- A round cuts where the localization landed, but never below height one. -/
theorem recoveryRound_of_error {e : CacheError} {base : Option Nat} {corrupt : Nat}
    (h : cache.validateLight = .error e) (hbase : cache.snapshotBaseHeight = .ok base)
    (hcorrupt : cache.lowestCorruptHeight = some corrupt) (hbound : corrupt ≤ u64Max) :
    recoveryRound cache = cache.truncated (max corrupt 1) base := by
  have hcut : satAdd (corrupt - 1) 1 = max corrupt 1 := by
    unfold satAdd
    unfold u64Max at hbound ⊢
    omega
  simp only [recoveryRound, openTimeCheck, h, recover, hcorrupt, Cache.reorg, hcut,
    Cache.removeFrom_eq hbase]

theorem recoveryRound_cases {e : CacheError} (hcache : Recoverable cache)
    (h : cache.validateLight = .error e) :
    ∃ first last v w corrupt base, cache.blocks.first = some (first, v) ∧
      cache.blocks.last = some (last, w) ∧ cache.snapshotBaseHeight = .ok base ∧
      (cache.LowestHole first last corrupt ∨ cache.BadSuffix first last corrupt) ∧
      recoveryRound cache = cache.truncated (max corrupt 1) base := by
  obtain ⟨first, last, v, w, corrupt, hfirst, hlast, hcorrupt, hcases⟩ :=
    Cache.lowestCorruptHeight_cases h
  obtain ⟨base, hbase⟩ := hcache.readable
  have hlt : last < u64Max := hcache.below _ (Table.last_mem hlast)
  have hle : corrupt ≤ last := by
    rcases hcases with hhole | hsuffix
    · exact hhole.below
    · exact hsuffix.below
  exact ⟨first, last, v, w, corrupt, base, hfirst, hlast, hbase, hcases,
    recoveryRound_of_error h hbase hcorrupt (by omega)⟩

theorem Recoverable.round (hcache : Recoverable cache) : Recoverable (recoveryRound cache) := by
  rcases h : cache.validateLight with e | _
  · obtain ⟨first, last, v, w, corrupt, base, -, -, hbase, -, heq⟩ := recoveryRound_cases hcache h
    rw [heq]
    refine ⟨Readable.truncated hbase _, ?_⟩
    intro row hrow
    exact hcache.below row ((Cache.prefix_truncated cache _ base).subset hrow)
  · rw [recoveryRound_of_ok h]
    exact hcache

theorem Recoverable.rounds (hcache : Recoverable cache) (n : Nat) :
    Recoverable (recoveryRound^[n] cache) := by
  induction n with
  | zero => exact hcache
  | succ n ih =>
      rw [Function.iterate_succ_apply']
      exact ih.round

theorem recoveryRound_get (hcache : Recoverable cache) {height : Nat}
    (hbelow : ∀ k ≤ height, ¬ cache.Corrupt k) :
    (recoveryRound cache).blocks.get height = cache.blocks.get height := by
  rcases h : cache.validateLight with e | _
  · obtain ⟨first, last, v, w, corrupt, base, hfirst, hlast, -, hcases, heq⟩ :=
      recoveryRound_cases hcache h
    have hcorrupt := Cache.corrupt_of_cases hfirst hlast hcases
    have hlt : height < corrupt := by
      by_contra hcon
      exact hbelow corrupt (by omega) hcorrupt
    rw [heq, Cache.truncated_get, if_pos (by omega)]
  · rw [recoveryRound_of_ok h]

/-! ### When they come to an end

Row zero is never dropped, since the height below it saturates.  That is the only
obstacle: a bad run that reaches up from it is found again in every round.
-/

/-- Recovery works: some number of rounds leads to a cache the check accepts, and no
round drops a row below the lowest corrupt height. -/
def Recovers (cache : Cache) : Prop :=
  (∃ n, (recoveryRound^[n] cache).validateLight = .ok ()) ∧
    ∀ n height, (∀ k ≤ height, ¬ (recoveryRound^[n] cache).Corrupt k) →
      (recoveryRound^[n + 1] cache).blocks.get height
        = (recoveryRound^[n] cache).blocks.get height

/-- The run of rows from height zero up, if there is one, has a good row in it. -/
def GoodFromZero (cache : Cache) : Prop :=
  cache.Present 0 → ∃ height, cache.goodRow height = true ∧ ∀ k ≤ height, cache.Present k

theorem recoveryRound_of_segment (hcache : Recoverable cache) (hzero : GoodFromZero cache)
    (hseg : cache.blocks.Contiguous) : (recoveryRound cache).validateLight = .ok () := by
  rcases h : cache.validateLight with e | _
  · obtain ⟨first, last, v, w, corrupt, base, hfirst, hlast, -, hcases, heq⟩ :=
      recoveryRound_cases hcache h
    have hsuffix : cache.BadSuffix first last corrupt := by
      refine hcases.resolve_left ?_
      intro hhole
      have hmem := (hseg.mem_keys_iff hfirst hlast).mpr ⟨Nat.le_of_lt hhole.above, hhole.below⟩
      exact hhole.missing (Table.get_isSome_iff_mem_keys.mpr hmem)
    have hpos : 1 ≤ corrupt := by
      -- A suffix that starts at zero has no good row, and zero is there.
      by_contra hcon
      obtain rfl : corrupt = 0 := by omega
      obtain rfl : first = 0 := by have := hsuffix.above; omega
      have hpresent : cache.Present 0 := by
        unfold Cache.Present
        rw [Table.get_eq_some_iff.mpr (Table.first_mem hfirst)]
        rfl
      obtain ⟨height, hgood, -⟩ := hzero hpresent
      have hmem := Table.get_isSome_iff_mem_keys.mp (Cache.present_of_goodRow hgood)
      have hle := ((hseg.mem_keys_iff hfirst hlast).mp hmem).2
      rw [hsuffix.bad height (Nat.zero_le _) hle] at hgood
      cases hgood
    rw [heq, Nat.max_eq_left hpos]
    exact hsuffix.truncated hfirst
  · rw [recoveryRound_of_ok h]
    exact h

/-- Otherwise the first round leaves a segment, and the run from height zero as it was. -/
theorem recoveryRound_of_hole {first last corrupt : Nat} {v : Bytes} {base : Option Nat}
    (hzero : GoodFromZero cache) (hhole : cache.LowestHole first last corrupt)
    (hfirst : cache.blocks.first = some (first, v))
    (heq : recoveryRound cache = cache.truncated (max corrupt 1) base) :
    (recoveryRound cache).blocks.Contiguous ∧ GoodFromZero (recoveryRound cache) := by
  have habove := hhole.above
  rw [heq, Nat.max_eq_left (by omega)]
  refine ⟨hhole.truncated hfirst, ?_⟩
  intro hpresent
  obtain ⟨height, hgood, hall⟩ := hzero (Cache.truncated_present.mp hpresent).2
  have hlt : height < corrupt := by
    by_contra hcon
    exact hhole.missing (hall corrupt (by omega))
  refine ⟨height, by rw [Cache.truncated_goodRow, if_pos hlt, hgood], ?_⟩
  intro k hk
  exact Cache.truncated_present.mpr ⟨by omega, hall k hk⟩

/-- Two rounds are enough, whatever the rows. -/
theorem recoveryRounds_ok (hcache : Recoverable cache) (hzero : GoodFromZero cache) :
    (recoveryRound^[2] cache).validateLight = .ok () := by
  show (recoveryRound (recoveryRound cache)).validateLight = .ok ()
  rcases h : cache.validateLight with e | _
  · obtain ⟨first, last, v, w, corrupt, base, hfirst, -, -, hcases, heq⟩ :=
      recoveryRound_cases hcache h
    rcases hcases with hhole | hsuffix
    · obtain ⟨hseg, hzero'⟩ := recoveryRound_of_hole hzero hhole hfirst heq
      exact recoveryRound_of_segment hcache.round hzero' hseg
    · have hok := recoveryRound_of_segment hcache hzero hsuffix.segment
      rw [recoveryRound_of_ok hok]
      exact hok
  · rw [recoveryRound_of_ok h, recoveryRound_of_ok h]
    exact h

private theorem validateLight_of_badFromZero (h : ¬ GoodFromZero cache) :
    cache.validateLight ≠ .ok () := by
  obtain ⟨hpresent, hbad⟩ := Classical.not_imp.mp h
  push Not at hbad
  intro hok
  obtain ⟨x, hx⟩ := Option.isSome_iff_exists.mp hpresent
  have hmem := Table.get_eq_some_iff.mp hx
  rcases hfirst : cache.blocks.first with _ | ⟨first, v⟩
  · rw [Table.first_eq_none_iff.mp hfirst] at hmem
    cases hmem
  rcases hlast : cache.blocks.last with _ | ⟨last, w⟩
  · rw [Table.last_eq_none_iff.mp hlast] at hmem
    cases hmem
  obtain ⟨hgood, hlen⟩ := (Cache.validateLight_eq_ok_iff hfirst hlast).mp hok
  have hseg := Table.contiguous_of_len hfirst hlast hlen
  have hzero : first = 0 := Nat.le_zero.mp (Table.first_le hmem hfirst)
  obtain ⟨k, hk, hmissing⟩ := hbad last hgood
  exact hmissing (Table.get_isSome_iff_mem_keys.mpr
    ((hseg.mem_keys_iff hfirst hlast).mpr ⟨by omega, hk⟩))

private theorem badFromZero_round (hcache : Recoverable cache) (h : ¬ GoodFromZero cache) :
    ¬ GoodFromZero (recoveryRound cache) := by
  rcases hcheck : cache.validateLight with e | _
  · obtain ⟨first, last, v, w, corrupt, base, -, -, -, -, heq⟩ := recoveryRound_cases hcache hcheck
    obtain ⟨hpresent, hbad⟩ := Classical.not_imp.mp h
    rw [heq]
    intro hzero
    obtain ⟨height, hgood, hall⟩ := hzero (Cache.truncated_present.mpr ⟨by omega, hpresent⟩)
    rw [Cache.truncated_goodRow] at hgood
    split at hgood
    · exact hbad ⟨height, hgood, fun k hk => (Cache.truncated_present.mp (hall k hk)).2⟩
    · cases hgood
  · rw [recoveryRound_of_ok hcheck]
    exact h

private theorem badFromZero_rounds (hcache : Recoverable cache)
    (h : ¬ GoodFromZero cache) (n : Nat) :
    ¬ GoodFromZero (recoveryRound^[n] cache) := by
  induction n with
  | zero => exact h
  | succ n ih =>
      rw [Function.iterate_succ_apply']
      exact badFromZero_round (hcache.rounds n) ih

/--
**When corruption recovery completes.**  On any rows, recovery reaches a cache that
passes the light check, without ever dropping a row below the lowest corrupt height,
exactly when the rows from height zero up are not all bad.
-/
theorem recovers_iff (hcache : Recoverable cache) : Recovers cache ↔ GoodFromZero cache := by
  constructor
  · intro hrecovers
    obtain ⟨⟨n, hok⟩, -⟩ := hrecovers
    by_contra hbad
    exact validateLight_of_badFromZero (badFromZero_rounds hcache hbad n) hok
  · intro hzero
    refine ⟨⟨2, recoveryRounds_ok hcache hzero⟩, ?_⟩
    intro n height hbelow
    rw [Function.iterate_succ_apply']
    exact recoveryRound_get (hcache.rounds n) hbelow

end

/-- A gap at 2 under a good tip, over a bad row at 1 and a good one at 0. -/
def gappedCache : Cache where
  blocks := ((Table.empty.insert 0 (Prost.encode (emptyBlock 0))).insert 1 [255]).insert 3
    (Prost.encode (emptyBlock 3))
  metaRows := Table.empty

theorem gappedCache_recovers : Recovers gappedCache ∧ gappedCache.validateLight ≠ .ok () := by
  have hcache : Recoverable gappedCache := ⟨⟨none, rfl⟩, by decide +kernel⟩
  refine ⟨(recovers_iff hcache).mpr ?_, by decide +kernel⟩
  intro _
  refine ⟨0, by decide +kernel, ?_⟩
  intro k hk
  obtain rfl : k = 0 := by omega
  rfl

/-- One row that does not decode, at height zero. -/
def badGenesis : Cache where
  blocks := Table.empty.insert 0 [255]
  metaRows := Table.empty

/-- No number of rounds gets rid of it. -/
theorem badGenesis_never : ¬ Recovers badGenesis := by
  have hround : recoveryRound badGenesis = badGenesis := by decide +kernel
  have hcheck : badGenesis.validateLight ≠ .ok () := by decide +kernel
  intro hrecovers
  obtain ⟨⟨n, hok⟩, -⟩ := hrecovers
  rw [Function.iterate_fixed hround n] at hok
  exact hcheck hok

end Lightwalletd
