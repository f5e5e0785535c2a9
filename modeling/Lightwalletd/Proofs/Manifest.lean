/-
What a manifest that passes says.

Each entry covers the upper end of its epoch, the first from the manifest's base on
and every later one all of it, and their indexes are consecutive.  Below the
largest word, where an epoch's bounds do not saturate, the heights of the entries
are then one run.
-/
import Lightwalletd.Proofs.Import
import Lightwalletd.Proofs.MetaKeys

namespace Lightwalletd

/-- What the check of an entry asks of the one before it. -/
def Continues (baseHeight : Nat) (previous : Option EpochEntry) (entry : EpochEntry) : Prop :=
  match previous with
  | none => epochFirstHeight entry.index ≤ entry.start ∧ baseHeight = entry.start
  | some previous =>
      entry.index = (previous.index + 1) % 2 ^ 64 ∧ entry.start = epochFirstHeight entry.index

theorem checkEntry_eq_ok {baseHeight : Nat} {previous : Option EpochEntry} {entry : EpochEntry}
    {u : Unit} :
    checkEntry baseHeight previous entry = .ok u ↔ entry.start ≤ entry.stop ∧
      entry.stop = epochLastHeight entry.index ∧ Continues baseHeight previous entry := by
  unfold checkEntry Continues
  by_cases hbounds : entry.start > entry.stop ∨ entry.stop ≠ epochLastHeight entry.index
  · rw [if_pos hbounds]
    refine ⟨nofun, ?_⟩
    rintro ⟨hle, hstop, -⟩
    rcases hbounds with hgt | hne
    · omega
    · exact absurd hstop hne
  rw [if_neg hbounds]
  obtain ⟨hle, hstop⟩ := not_or.mp hbounds
  rw [and_iff_right (Nat.le_of_not_lt hle), and_iff_right (not_not.mp hstop)]
  rcases previous with _ | previous
  · by_cases hfirst : entry.start < epochFirstHeight entry.index ∨ baseHeight ≠ entry.start
    · simp only [if_pos hfirst]
      refine ⟨nofun, ?_⟩
      rintro ⟨hlow, hbase⟩
      rcases hfirst with hlt | hne
      · omega
      · exact absurd hbase hne
    · simp only [if_neg hfirst, true_iff]
      obtain ⟨hlow, hbase⟩ := not_or.mp hfirst
      exact ⟨Nat.le_of_not_lt hlow, not_not.mp hbase⟩
  · by_cases hnext : entry.index ≠ (previous.index + 1) % 2 ^ 64
        ∨ entry.start ≠ epochFirstHeight entry.index
    · simp only [if_pos hnext]
      refine ⟨nofun, ?_⟩
      rintro ⟨hindex, hstart⟩
      rcases hnext with hne | hne
      · exact absurd hindex hne
      · exact absurd hstart hne
    · simp only [if_neg hnext, true_iff]
      obtain ⟨hindex, hstart⟩ := not_or.mp hnext
      exact ⟨not_not.mp hindex, not_not.mp hstart⟩

theorem validateManifest_eq_ok {manifest : Manifest} {chain : String} {u : Unit} :
    validateManifest manifest chain = .ok u ↔ manifest.formatVersion = formatVersion ∧
      manifest.epochSize = epochSize ∧ manifest.chain = chain ∧
      checkEntries manifest.baseHeight none manifest.epochs = .ok () := by
  simp [validateManifest, Except.bind_eq_ok, Except.ensure_eq_ok]

/-- The epoch after one that ends below the largest word starts right above it. -/
theorem epochFirstHeight_succ {index : Nat} (h : epochLastHeight index < u64Max) :
    (index + 1) % 2 ^ 64 = index + 1 ∧
      epochFirstHeight (index + 1) = epochLastHeight index + 1 := by
  have hlast : index * epochSize + (epochSize - 1) < u64Max := by
    by_contra hge
    have : epochLastHeight index = u64Max := by
      simp only [epochLastHeight, epochFirstHeight, satAdd, satMul, epochSize, u64Max] at hge ⊢
      omega
    omega
  have heq := epochLastHeight_of_le (Nat.le_of_lt hlast)
  refine ⟨?_, ?_⟩
  · simp only [epochSize, u64Max] at hlast
    omega
  · rw [heq, epochFirstHeight_of_le]
    · simp only [epochSize]
      omega
    · simp only [epochSize] at hlast ⊢
      omega

/-- The bounds are those of the index, from some height on. -/
def EpochEntry.Bounded (entry : EpochEntry) : Prop :=
  entry.start ≤ entry.stop ∧ entry.stop = epochLastHeight entry.index

/-- The entry behind another covers all of the epoch with the next index. -/
def NextEpoch (a b : EpochEntry) : Prop :=
  b.index = (a.index + 1) % 2 ^ 64 ∧ b.start = epochFirstHeight b.index

theorem checkEntries_next {baseHeight : Nat} {previous : Option EpochEntry}
    {entries : List EpochEntry} (h : checkEntries baseHeight previous entries = .ok ()) :
    (previous.toList ++ entries).IsChain NextEpoch ∧ ∀ entry ∈ entries, entry.Bounded := by
  induction entries generalizing previous with
  | nil =>
      rcases previous with _ | previous
      · exact ⟨List.isChain_nil, by simp⟩
      · exact ⟨List.isChain_singleton _, by simp⟩
  | cons entry entries ih =>
      simp only [checkEntries, Except.bind_eq_ok] at h
      obtain ⟨_, hentry, hrest⟩ := h
      obtain ⟨hle, hstop, hcontinues⟩ := checkEntry_eq_ok.mp hentry
      obtain ⟨hchain, hbounded⟩ := ih hrest
      refine ⟨?_, ?_⟩
      · rcases previous with _ | previous
        · exact hchain
        · exact List.isChain_cons_cons.mpr ⟨hcontinues, hchain⟩
      · intro e he
        rcases List.mem_cons.mp he with rfl | he
        · exact ⟨hle, hstop⟩
        · exact hbounded e he

/-- The next epoch starts right above one exactly if that ends below the largest word. -/
theorem NextEpoch.adjacent_iff {a b : EpochEntry} (h : NextEpoch a b) (ha : a.Bounded) :
    b.start = a.stop + 1 ↔ a.stop < u64Max := by
  obtain ⟨hindex, hstart⟩ := h
  constructor
  · intro hadjacent
    have hle : epochFirstHeight b.index ≤ u64Max := satMul_le _ _
    omega
  · intro hbelow
    rw [ha.2] at hbelow
    obtain ⟨hwrap, hnext⟩ := epochFirstHeight_succ hbelow
    rw [hstart, hindex, hwrap, hnext, ha.2]

theorem adjacent_iff {entries : List EpochEntry} (hchain : entries.IsChain NextEpoch)
    (hbounded : ∀ entry ∈ entries, entry.Bounded) :
    entries.IsChain (fun a b => b.start = a.stop + 1) ↔
      ∀ entry ∈ entries.dropLast, entry.stop < u64Max := by
  induction entries with
  | nil => simp
  | cons a entries ih =>
      rcases entries with _ | ⟨b, entries⟩
      · simp
      obtain ⟨hnext, hrest⟩ := List.isChain_cons_cons.mp hchain
      have htail := ih hrest fun entry hin => hbounded entry (List.mem_cons_of_mem _ hin)
      rw [List.isChain_cons_cons, htail, hnext.adjacent_iff (hbounded a List.mem_cons_self),
        List.dropLast_cons_cons, List.forall_mem_cons]

/-- The last of consecutive entries reaches highest. -/
theorem stop_le_last {entries : List EpochEntry} {last : EpochEntry}
    (hchain : entries.IsChain (fun a b => b.start = a.stop + 1))
    (hbounds : ∀ entry ∈ entries, entry.start ≤ entry.stop) (hlast : entries.getLast? = some last) :
    ∀ entry ∈ entries, entry.stop ≤ last.stop := by
  induction entries with
  | nil => simp
  | cons entry entries ih =>
      intro e he
      obtain ⟨hadjacent, hchain'⟩ := List.isChain_cons.mp hchain
      rcases entries with _ | ⟨next, entries⟩
      · obtain rfl : entry = last := by simpa using hlast
        rw [List.mem_singleton.mp he]
      · have hlast' : (next :: entries).getLast? = some last := by
          rw [← hlast, List.getLast?_cons_cons]
        have hrest := ih hchain' (fun x hx => hbounds x (List.mem_cons_of_mem _ hx)) hlast'
        rcases List.mem_cons.mp he with rfl | he
        · have hnext := hadjacent next rfl
          have hle := hbounds next (by simp)
          have := hrest next List.mem_cons_self
          omega
        · exact hrest e he

theorem entries_cover {entries : List EpochEntry} {first last : EpochEntry}
    (hchain : entries.IsChain (fun a b => b.start = a.stop + 1))
    (hfirst : entries.head? = some first) (hlast : entries.getLast? = some last) {height : Nat}
    (hlow : first.start ≤ height) (hhigh : height ≤ last.stop) :
    ∃ entry ∈ entries, entry.start ≤ height ∧ height ≤ entry.stop := by
  induction entries generalizing first with
  | nil => simp at hfirst
  | cons entry entries ih =>
      obtain rfl : entry = first := by simpa using hfirst
      obtain ⟨hadjacent, hchain'⟩ := List.isChain_cons.mp hchain
      by_cases hin : height ≤ entry.stop
      · exact ⟨entry, List.mem_cons_self, hlow, hin⟩
      rcases entries with _ | ⟨next, entries⟩
      · obtain rfl : entry = last := by simpa using hlast
        exact absurd hhigh hin
      · have hlast' : (next :: entries).getLast? = some last := by
          rw [← hlast, List.getLast?_cons_cons]
        have hnext := hadjacent next rfl
        obtain ⟨e, he, hcover⟩ := ih hchain' rfl hlast' (by omega)
        exact ⟨e, List.mem_cons_of_mem _ he, hcover⟩

end Lightwalletd
