/-
An accepted manifest as a cover of heights.

The bounds of an epoch saturate at the largest word.  Below it, the epoch after one
starts right above it, and entries whose indexes are consecutive are one run of
heights.  The epoch that holds the largest word ends there, and so does every one
after it: an entry behind such a one starts where that one ends, or lower.  The
check lets it through, and adds one to an index it has not compared with anything.
-/
import Lightwalletd.Proofs.Manifest
import Lightwalletd.Snapshot.Indexed

namespace Lightwalletd

open Checked

/-! ### Covers

Neighbouring entries cover unless an end has saturated: then the next entry has nowhere
to start.
-/

/-- The entries are a contiguous cover from the base on. -/
structure CoversFrom (baseHeight : Nat) (entries : List EpochEntry) : Prop where
  nonempty : ∀ entry ∈ entries, entry.start ≤ entry.stop
  disjoint : entries.Pairwise fun a b => ∀ height,
    ¬ (a.start ≤ height ∧ height ≤ a.stop ∧ b.start ≤ height ∧ height ≤ b.stop)
  ascending : entries.Pairwise fun a b => a.start < b.start ∧ a.stop < b.stop
  first : ∀ entry ∈ entries.head?, entry.start = baseHeight
  adjacent : entries.IsChain fun a b => b.start = a.stop + 1

private theorem below_later {entries : List EpochEntry}
    (hadjacent : entries.IsChain fun a b => b.start = a.stop + 1)
    (hbounded : ∀ entry ∈ entries, entry.start ≤ entry.stop) :
    entries.Pairwise fun a b => a.stop < b.start ∧ b.start ≤ b.stop := by
  have htrans : IsTrans EpochEntry fun a b => a.stop < b.start ∧ b.start ≤ b.stop :=
    ⟨fun a b c hab hbc => ⟨by omega, hbc.2⟩⟩
  refine List.isChain_iff_pairwise.mp ?_
  induction entries with
  | nil => exact List.isChain_nil
  | cons a entries ih =>
      rcases entries with _ | ⟨b, entries⟩
      · exact List.isChain_singleton _
      obtain ⟨hnext, hrest⟩ := List.isChain_cons_cons.mp hadjacent
      have hb := hbounded b (by simp)
      exact List.isChain_cons_cons.mpr ⟨⟨by omega, hb⟩,
        ih hrest fun entry hin => hbounded entry (List.mem_cons_of_mem _ hin)⟩

theorem covers_of_adjacent {baseHeight : Nat} {entries : List EpochEntry}
    (h : checkEntries baseHeight none entries = .ok ())
    (hadjacent : entries.IsChain fun a b => b.start = a.stop + 1) :
    CoversFrom baseHeight entries := by
  obtain ⟨-, hbounded⟩ := checkEntries_next h
  have hbounds := fun entry hin => (hbounded entry hin).1
  have hbelow := below_later hadjacent hbounds
  refine ⟨hbounds, ?_, ?_, ?_, hadjacent⟩
  · exact hbelow.imp fun ⟨hlt, _⟩ height hheight => by omega
  · refine List.Pairwise.imp_of_mem ?_ hbelow
    intro a b ha _ hlt
    have := hbounds a ha
    omega
  · rcases entries with _ | ⟨first, entries⟩
    · simp
    · simp only [checkEntries, Except.bind_eq_ok] at h
      obtain ⟨_, hentry, -⟩ := h
      obtain ⟨-, -, -, hbase⟩ := checkEntry_eq_ok.mp hentry
      rintro entry ⟨⟩
      exact hbase.symm

/-- An accepted list of entries covers exactly if none but the last ends at the largest
word. -/
theorem covers_iff {baseHeight : Nat} {entries : List EpochEntry}
    (h : checkEntries baseHeight none entries = .ok ()) :
    CoversFrom baseHeight entries ↔ ∀ entry ∈ entries.dropLast, entry.stop < u64Max := by
  obtain ⟨hchain, hbounded⟩ := checkEntries_next h
  change entries.IsChain NextEpoch at hchain
  rw [← adjacent_iff hchain hbounded]
  exact ⟨fun hcovers => hcovers.adjacent, covers_of_adjacent h⟩

/-! ### The sum

The sum of the last index and one is taken before the next index is compared with it, so
that the largest index stops the program at the next entry, if that gets past the check
of its own bounds.
-/

/-- Without a largest index before it, an entry is checked as it is in a release build. -/
theorem checkEntryIndexed_eq {baseHeight : Nat} {previous : Option EpochEntry} {entry : EpochEntry}
    (h : entry.Bounded → ∀ p ∈ previous, p.index < u64Max) :
    checkEntryIndexed baseHeight previous entry = lift (checkEntry baseHeight previous entry) := by
  unfold checkEntryIndexed checkEntry
  by_cases hbounds : entry.start > entry.stop ∨ entry.stop ≠ epochLastHeight entry.index
  · rw [if_pos hbounds, if_pos hbounds]
  rw [if_neg hbounds, if_neg hbounds]
  obtain ⟨hle, hstop⟩ := not_or.mp hbounds
  rcases previous with _ | previous
  · dsimp only
    split_ifs <;> rfl
  · have hindex := h ⟨Nat.le_of_not_lt hle, not_not.mp hstop⟩ previous rfl
    simp only [u64Max] at hindex
    dsimp only
    rw [add_eq (by omega), lift_ok_bind, Nat.mod_eq_of_lt (by omega)]
    split_ifs <;> rfl

private theorem checkEntryIndexed_panics {baseHeight : Nat} {previous entry : EpochEntry}
    (hentry : entry.Bounded) (hindex : u64Max ≤ previous.index) :
    checkEntryIndexed baseHeight (some previous) entry = panicked := by
  unfold checkEntryIndexed
  simp only [u64Max] at hindex
  rw [if_neg (by rw [not_or, not_lt, not_not]; exact hentry)]
  dsimp only
  rw [add_panics (by omega), panicked_bind]

/-- The loop goes on from an entry with the largest index, behind the given one. -/
def PassesTop (baseHeight : Nat) (previous : Option EpochEntry)
    (entries : List EpochEntry) : Prop :=
  ∃ (i : Nat) (p entry : EpochEntry), entries[i]? = some p ∧ entries[i + 1]? = some entry ∧
    checkEntries baseHeight previous (entries.take (i + 1)) = .ok () ∧ u64Max ≤ p.index ∧
    entry.Bounded

theorem passesTop_cons {baseHeight : Nat} {previous : Option EpochEntry} {entry : EpochEntry}
    {entries : List EpochEntry} :
    PassesTop baseHeight previous (entry :: entries) ↔
      checkEntry baseHeight previous entry = .ok () ∧
      ((∃ next ∈ entries.head?, u64Max ≤ entry.index ∧ next.Bounded) ∨
        PassesTop baseHeight (some entry) entries) := by
  have hcut : ∀ i, checkEntries baseHeight previous ((entry :: entries).take (i + 1)) = .ok () ↔
      checkEntry baseHeight previous entry = .ok () ∧
        checkEntries baseHeight (some entry) (entries.take i) = .ok () := by
    intro i
    rw [List.take_succ_cons, checkEntries, Except.bind_eq_ok]
    constructor
    · rintro ⟨_, hentry, hrest⟩
      exact ⟨hentry, hrest⟩
    · rintro ⟨hentry, hrest⟩
      exact ⟨(), hentry, hrest⟩
  constructor
  · rintro ⟨i, p, next, hp, hnext, hpass, hindex, hbounded⟩
    obtain ⟨hentry, hrest⟩ := (hcut i).mp hpass
    refine ⟨hentry, ?_⟩
    cases i with
    | zero =>
        cases hp
        exact Or.inl ⟨next, by rw [List.head?_eq_getElem?]; exact hnext, hindex, hbounded⟩
    | succ i => exact Or.inr ⟨i, p, next, hp, hnext, hrest, hindex, hbounded⟩
  · rintro ⟨hentry, ⟨next, hnext, hindex, hbounded⟩ | ⟨i, p, next, hp, hnext, hrest,
      hindex, hbounded⟩⟩
    · rw [List.head?_eq_getElem?] at hnext
      exact ⟨0, entry, next, rfl, hnext, (hcut 0).mpr ⟨hentry, rfl⟩, hindex, hbounded⟩
    · exact ⟨i + 1, p, next, hp, hnext, (hcut (i + 1)).mpr ⟨hentry, hrest⟩, hindex, hbounded⟩

/-- The loop overflows: at its first entry, or where it goes on from a later one. -/
def Overflows (baseHeight : Nat) (previous : Option EpochEntry)
    (entries : List EpochEntry) : Prop :=
  (∃ p ∈ previous, ∃ entry ∈ entries.head?, u64Max ≤ p.index ∧ entry.Bounded) ∨
    PassesTop baseHeight previous entries

private theorem checkEntriesIndexed_panics {baseHeight : Nat} {previous : Option EpochEntry}
    {entries : List EpochEntry} (h : Overflows baseHeight previous entries) :
    checkEntriesIndexed baseHeight previous entries = panicked := by
  induction entries generalizing previous with
  | nil =>
      rcases h with ⟨_, -, _, hnext, -⟩ | ⟨_, _, _, hp, -⟩
      · cases hnext
      · simp at hp
  | cons entry entries ih =>
      unfold checkEntriesIndexed
      by_cases htop : entry.Bounded ∧ ∃ p ∈ previous, u64Max ≤ p.index
      · obtain ⟨hbounded, p, hp, hindex⟩ := htop
        rw [Option.mem_def.mp hp, checkEntryIndexed_panics hbounded hindex, panicked_bind]
      · have hlow : entry.Bounded → ∀ p ∈ previous, p.index < u64Max := by
          intro hbounded p hp
          by_contra hge
          exact htop ⟨hbounded, p, hp, Nat.le_of_not_lt hge⟩
        rcases h with ⟨p, hp, next, hnext, hindex, hbounded⟩ | hpasses
        · cases hnext
          exact absurd ⟨hbounded, p, hp, hindex⟩ htop
        · obtain ⟨hentry, hrest⟩ := passesTop_cons.mp hpasses
          rw [checkEntryIndexed_eq hlow, hentry, lift_ok_bind]
          refine ih ?_
          rcases hrest with ⟨next, hnext, hindex, hbounded⟩ | hlater
          · exact Or.inl ⟨entry, rfl, next, hnext, hindex, hbounded⟩
          · exact Or.inr hlater

theorem checkEntriesIndexed_eq {baseHeight : Nat} {previous : Option EpochEntry}
    {entries : List EpochEntry} (h : ¬ Overflows baseHeight previous entries) :
    checkEntriesIndexed baseHeight previous entries
      = lift (checkEntries baseHeight previous entries) := by
  induction entries generalizing previous with
  | nil => rfl
  | cons entry entries ih =>
      unfold checkEntriesIndexed checkEntries
      have hlow : entry.Bounded → ∀ p ∈ previous, p.index < u64Max := by
        intro hbounded p hp
        by_contra hge
        exact h (Or.inl ⟨p, hp, entry, rfl, Nat.le_of_not_lt hge, hbounded⟩)
      rw [checkEntryIndexed_eq hlow]
      refine lift_bind fun _ hentry => ih fun hrest => h (Or.inr (passesTop_cons.mpr ⟨hentry, ?_⟩))
      rcases hrest with ⟨p, hp, next, hnext, hindex, hbounded⟩ | hlater
      · cases hp
        exact Or.inl ⟨next, hnext, hindex, hbounded⟩
      · exact Or.inr hlater

/-- The manifest makes its own check overflow: cut off behind an entry with the largest
index it is accepted, and the entry that follows has the bounds of its index. -/
def Manifest.Overflows (manifest : Manifest) (chain : String) : Prop :=
  ∃ (i : Nat) (p entry : EpochEntry), manifest.epochs[i]? = some p ∧
    manifest.epochs[i + 1]? = some entry ∧
    validateManifest { manifest with epochs := manifest.epochs.take (i + 1) } chain = .ok () ∧
    u64Max ≤ p.index ∧ entry.Bounded

/-- The manifest stays below the largest word, up to its last entry. -/
def Manifest.Below (manifest : Manifest) : Prop :=
  ∀ entry ∈ manifest.epochs.dropLast, entry.stop < u64Max

theorem epochLastHeight_top {index : Nat} (h : u64Max ≤ index) :
    epochLastHeight index = u64Max := by
  simp only [epochLastHeight, epochFirstHeight, satAdd, satMul, epochSize, u64Max] at h ⊢
  omega

/-- Past the checks of its own fields, the manifest overflows where the loop does. -/
theorem manifest_overflows_iff {manifest : Manifest} {chain : String} :
    manifest.Overflows chain ↔ (manifest.formatVersion = formatVersion ∧
      manifest.epochSize = epochSize ∧ manifest.chain = chain) ∧
      Overflows manifest.baseHeight none manifest.epochs := by
  constructor
  · rintro ⟨i, p, entry, hp, hentry, hpass, hindex, hbounded⟩
    obtain ⟨hversion, hsize, hchain, hentries⟩ := validateManifest_eq_ok.mp hpass
    exact ⟨⟨hversion, hsize, hchain⟩, Or.inr ⟨i, p, entry, hp, hentry, hentries, hindex, hbounded⟩⟩
  · rintro ⟨⟨hversion, hsize, hchain⟩, ⟨_, hnone, -⟩ | ⟨i, p, entry, hp, hentry, hentries, hrest⟩⟩
    · cases hnone
    · exact ⟨i, p, entry, hp, hentry,
        validateManifest_eq_ok.mpr ⟨hversion, hsize, hchain, hentries⟩, hrest⟩

theorem validateManifestIndexed_iff (manifest : Manifest) (chain : String) :
    validateManifestIndexed manifest chain = lift (validateManifest manifest chain) ↔
      ¬ manifest.Overflows chain := by
  constructor
  · intro heq hoverflows
    obtain ⟨⟨hversion, hsize, hchain⟩, hloop⟩ := manifest_overflows_iff.mp hoverflows
    unfold validateManifestIndexed at heq
    rw [Except.ensure_pos hversion, Except.ensure_pos hsize, Except.ensure_pos hchain,
      lift_ok_bind, lift_ok_bind, lift_ok_bind, checkEntriesIndexed_panics hloop] at heq
    cases heq
  · intro hfits
    unfold validateManifestIndexed validateManifest
    refine lift_bind fun _ hversion => lift_bind fun _ hsize => lift_bind fun _ hchain => ?_
    refine checkEntriesIndexed_eq fun hloop => hfits (manifest_overflows_iff.mpr ⟨?_, hloop⟩)
    exact ⟨Except.ensure_eq_ok.mp hversion, Except.ensure_eq_ok.mp hsize,
      Except.ensure_eq_ok.mp hchain⟩

theorem Manifest.Below.not_overflows {manifest : Manifest} (h : manifest.Below) (chain : String) :
    ¬ manifest.Overflows chain := by
  rintro ⟨i, p, entry, hp, hentry, hpass, hindex, -⟩
  obtain ⟨-, -, -, hentries⟩ := validateManifest_eq_ok.mp hpass
  have hmem : p ∈ manifest.epochs.take (i + 1) :=
    List.mem_of_getElem? (i := i) (by rw [List.getElem?_take_of_lt (Nat.lt_succ_self i)]; exact hp)
  have hstop := ((checkEntries_next hentries).2 p hmem).2
  have hlast := epochLastHeight_top hindex
  have hlength : i + 1 < manifest.epochs.length := (List.getElem?_eq_some_iff.mp hentry).1
  have := h p (List.mem_of_getElem? (i := i) (by
    rw [List.getElem?_dropLast, if_pos (by omega)]
    exact hp))
  omega

/--
**When an accepted manifest covers.**  Whatever the peer has put into it: an accepted
manifest is a contiguous cover from its base on, and was checked without overflow,
exactly if no entry but the last ends at the largest word.  Accepted or not, the check
overflows exactly if it goes on from an entry with the largest index.
-/
theorem accepted_covers (manifest : Manifest) (chain : String) :
    (validateManifest manifest chain = .ok () →
      (CoversFrom manifest.baseHeight manifest.epochs ∧
          validateManifestIndexed manifest chain = lift (.ok ()) ↔ manifest.Below)) ∧
    (validateManifestIndexed manifest chain = lift (validateManifest manifest chain) ↔
      ¬ manifest.Overflows chain) := by
  refine ⟨?_, validateManifestIndexed_iff manifest chain⟩
  intro h
  obtain ⟨-, -, -, hentries⟩ := validateManifest_eq_ok.mp h
  constructor
  · exact fun hcovers => (covers_iff hentries).mp hcovers.1
  · intro hbelow
    refine ⟨(covers_iff hentries).mpr hbelow, ?_⟩
    rw [(validateManifestIndexed_iff manifest chain).mpr (hbelow.not_overflows chain), h]

/-- A manifest of the main chain, of entries with only their ranges. -/
def manifestOf (baseHeight : Nat) (ranges : List (Nat × Nat × Nat)) : Manifest where
  formatVersion := formatVersion
  chain := "main"
  epochSize := epochSize
  baseHeight := baseHeight
  tipHeight := u64Max
  epochs := ranges.map fun (index, start, stop) => ⟨index, start, stop, 0, "", ""⟩

/-- The epoch that holds the largest word, and the one after it. -/
def saturatedManifest : Manifest :=
  manifestOf 18446744073709550000
    [(1844674407370955, 18446744073709550000, u64Max), (1844674407370956, u64Max, u64Max)]

/-- The epoch with the largest index, and the one it wraps around to. -/
def wrappedManifest : Manifest := manifestOf u64Max [(u64Max, u64Max, u64Max), (0, 0, 9999)]

/-- The first is accepted and its entries share a height; the other makes the check
overflow. -/
theorem top_entries_break_cover :
    (¬ ∀ (manifest : Manifest) (chain : String), validateManifest manifest chain = .ok () →
      CoversFrom manifest.baseHeight manifest.epochs) ∧
    ¬ ∀ (manifest : Manifest) (chain : String),
      validateManifestIndexed manifest chain = lift (validateManifest manifest chain) := by
  refine ⟨?_, ?_⟩
  · intro h
    have haccepted : validateManifest saturatedManifest "main" = .ok () := by decide +kernel
    have hadjacent := (h saturatedManifest "main" haccepted).adjacent
    revert hadjacent
    decide +kernel
  · intro h
    have hpanics : (validateManifestIndexed wrappedManifest "main").run.isNone = true := by
      decide +kernel
    rw [h] at hpanics
    cases hpanics

/-- A manifest that starts in the middle of its first epoch. -/
theorem midEpochManifest_covers :
    CoversFrom 5000 (manifestOf 5000 [(0, 5000, 9999), (1, 10000, 19999)]).epochs := by
  refine (((accepted_covers (manifestOf 5000 [(0, 5000, 9999), (1, 10000, 19999)]) "main").1
    (by decide +kernel)).mpr ?_).1
  unfold Manifest.Below
  decide +kernel

end Lightwalletd
