/-
An import that is interrupted and taken up again.

Against an honest peer over one chain, every run, wherever it stops, leaves the
cache holding a run of that chain from the manifest's first height on, and so does
the ingestor between runs.  Where a run takes up is read off the cached tip alone,
so the last run, answered to its end, arrives where a single one would have.
-/
import Lightwalletd.Proofs.Honest
import Lightwalletd.Proofs.Manifest

namespace Lightwalletd

section

variable [Prost] [Sha256]

/-- `final` is an honest manifest of the chain: valid, and with its heights on it. -/
structure ManifestOf (chain : String) (block : Nat → CompactBlock) (low high : Nat)
    (final : Manifest) : Prop where
  name : validChain chain = true
  segment : ChainSegment block low high
  valid : validateManifest final chain = .ok ()
  within : ∀ entry ∈ final.epochs, EntryWithin low high entry
  first : ∀ entry ∈ final.epochs.head?, entry.start = low

/-- What a run may see, however far it gets: a manifest that `final` extends, and
bodies of the chain's blocks. -/
def HonestRun (chain : String) (block : Nat → CompactBlock) (final : Manifest) (env : ImportEnv) :
    Prop :=
  ∀ found, env.manifest = .ready (.ok found) → found.chain = chain ∧
    found.epochs <+: final.epochs ∧ ServesHonestly env chain block 0 found.epochs

/-- What a run sees that is not interrupted: all of `final`, from a node whose tip is
not below it. -/
structure AnsweredRun (chain : String) (block : Nat → CompactBlock) (final : Manifest)
    (env : ImportEnv) : Prop where
  manifest : env.manifest = .ready (.ok final)
  node : ∃ info, env.blockchainInfo = .ready (.ok info) ∧ info.chain = chain ∧
    ∀ entry ∈ final.epochs, entry.stop ≤ info.blocks
  serves : ServesAll env chain block 0 final.epochs

/-- The caches that runs lead to, with the ingestor appending the chain's next blocks
in between, once something has landed; the heights it appended are listed. -/
inductive Resumed (chain : String) (block : Nat → CompactBlock) (high : Nat) (final : Manifest) :
    Cache → List Nat → Prop
  | empty : Resumed chain block high final Cache.empty []
  | run {cache : Cache} {native : List Nat} (h : Resumed chain block high final cache native)
      (env : ImportEnv) (concurrency : Nat) (henv : HonestRun chain block final env) :
      Resumed chain block high final (importSnapshot env cache concurrency).1 native
  | ingest {cache : Cache} {native : List Nat} (h : Resumed chain block high final cache native)
      {tip : Nat} (hlanded : cache.latestHeight = some tip) (count : Nat)
      (hcount : tip + count ≤ high) :
      Resumed chain block high final (cache.addBatch (blocksFrom block (tip + 1) count)).1
        (native ++ List.range' (tip + 1) count)

variable {chain : String} {block : Nat → CompactBlock} {low high : Nat} {final : Manifest}

/-- The cache holds the chain up to `tip`, and whatever is above the manifest is native. -/
structure OnChain (block : Nat → CompactBlock) (low high : Nat) (final : Manifest)
    (native : List Nat) (tip : Option Nat) (cache : Cache) : Prop where
  holds : HoldsUpTo block low tip cache
  bound : ∀ t, tip = some t → t ≤ high
  landed : ∀ t, tip = some t → final.epochs ≠ []
  native : ∀ t, tip = some t → ∀ height, height ≤ t →
    height ∈ native ∨ ∃ entry ∈ final.epochs, height ≤ entry.stop

omit [Sha256] in
theorem onChain_empty (native : List Nat) :
    OnChain block low high final native none Cache.empty :=
  ⟨rfl, nofun, nofun, nofun⟩

theorem OnChain.run (hmanifest : ManifestOf chain block low high final) {cache : Cache}
    {native : List Nat} {tip : Option Nat} (h : OnChain block low high final native tip cache)
    {env : ImportEnv} (henv : HonestRun chain block final env) (concurrency : Nat) :
    ∃ tip', OnChain block low high final native tip' (importSnapshot env cache concurrency).1 := by
  unfold importSnapshot
  rcases hfound : env.manifest with (error | found) | _
  · exact ⟨tip, h⟩
  · obtain ⟨rfl, hpre, hserves⟩ := henv found hfound
    rcases env.blockchainInfo with (error | info) | _
    · exact ⟨tip, h⟩
    · simp only
      rcases validateManifest found info.chain with error | u
      · exact ⟨tip, h⟩
      · simp only
        have hwithin : ∀ entry ∈ found.epochs, EntryWithin low high entry :=
          fun entry hin => hmanifest.within entry (hpre.subset hin)
        have hfirst : tip = none → ∀ entry ∈ found.epochs.head?, entry.start = low := by
          intro _ entry hin
          refine hmanifest.first entry ?_
          obtain ⟨more, hmore⟩ := hpre
          rw [← hmore, List.head?_append, Option.mem_def.mp hin]
          rfl
        obtain ⟨tip', hholds', htip'⟩ := importLoop_honest hmanifest.name hmanifest.segment env
          info.blocks concurrency found.epochs cache tip 0 hwithin hserves h.holds hfirst
        rw [h.holds.latestHeight hmanifest.segment h.bound]
        rcases htip' with rfl | ⟨entry, hin, rfl⟩
        · exact ⟨tip', hholds', h.bound, h.landed, h.native⟩
        · refine ⟨some entry.stop, hholds', ?_, ?_, ?_⟩
          · rintro t ⟨⟩
            exact (hwithin entry hin).2.2
          · rintro t ⟨⟩
            exact List.ne_nil_of_mem (hpre.subset hin)
          · rintro t ⟨⟩ height hle
            exact Or.inr ⟨entry, hpre.subset hin, hle⟩
    · exact ⟨tip, h⟩
  · exact ⟨tip, h⟩

omit [Sha256] in
theorem OnChain.ingest (hmanifest : ManifestOf chain block low high final) {cache : Cache}
    {native : List Nat} {tip : Option Nat} (h : OnChain block low high final native tip cache)
    {t : Nat} (hlanded : cache.latestHeight = some t) (count : Nat) (hcount : t + count ≤ high) :
    OnChain block low high final (native ++ List.range' (t + 1) count) (some (t + count))
      (cache.addBatch (blocksFrom block (t + 1) count)).1 := by
  obtain rfl : tip = some t := by
    rw [← hlanded, h.holds.latestHeight hmanifest.segment h.bound]
  have hholds : Holds block low t cache := h.holds
  refine ⟨?_, ?_, ?_, ?_⟩
  · rcases Nat.eq_zero_or_pos count with rfl | hpos
    · exact hholds
    · obtain ⟨cache', happend, hholds'⟩ := hholds.append_run hmanifest.segment count hpos hcount
      rw [Cache.addBatch, happend]
      exact hholds'
  · rintro _ ⟨⟩
    exact hcount
  · rintro _ ⟨⟩
    exact h.landed t rfl
  · rintro _ ⟨⟩ height hle
    by_cases hold : height ≤ t
    · exact (h.native t rfl height hold).imp_left (List.mem_append_left _)
    · exact Or.inl (List.mem_append_right _ (List.mem_range'_1.mpr ⟨by omega, by omega⟩))

theorem Resumed.onChain (hmanifest : ManifestOf chain block low high final) {cache : Cache}
    {native : List Nat} (h : Resumed chain block high final cache native) :
    ∃ tip, OnChain block low high final native tip cache := by
  induction h with
  | empty => exact ⟨none, onChain_empty []⟩
  | run _ env concurrency henv ih =>
      obtain ⟨tip, hon⟩ := ih
      exact hon.run hmanifest henv concurrency
  | ingest _ hlanded count hcount ih =>
      obtain ⟨tip, hon⟩ := ih
      exact ⟨_, hon.ingest hmanifest hlanded count hcount⟩

/-! ### The last run

The runs before it may have stopped anywhere: they leave a cache on the chain, and that
is all the last one starts from.
-/

omit [Prost] [Sha256] in
theorem ManifestOf.consecutive (h : ManifestOf chain block low high final) :
    final.epochs.IsChain (fun a b => b.start = a.stop + 1) := by
  have hbelow : ∀ entry ∈ final.epochs, entry.stop < u64Max := fun entry hin =>
    Nat.lt_of_le_of_lt (h.within entry hin).2.2 h.segment.below
  obtain ⟨hchain, hbounded⟩ := checkEntries_next (validateManifest_eq_ok.mp h.valid).2.2.2
  exact (adjacent_iff hchain hbounded).mpr fun entry hin =>
    hbelow entry (List.mem_of_mem_dropLast hin)

/-- A run answered to its end reaches the last entry from anywhere on the chain. -/
theorem OnChain.answered (hmanifest : ManifestOf chain block low high final) {cache : Cache}
    {native : List Nat} {tip : Option Nat} (h : OnChain block low high final native tip cache)
    {env : ImportEnv} (henv : AnsweredRun chain block final env) (concurrency : Nat) :
    ∃ cache', importSnapshot env cache concurrency
        = (cache', .returned (.ok (finalTip tip final.epochs))) ∧
      HoldsUpTo block low (finalTip tip final.epochs) cache' := by
  obtain ⟨info, hinfo, rfl, hnode⟩ := henv.node
  obtain ⟨-, -, hname, -⟩ := validateManifest_eq_ok.mp hmanifest.valid
  unfold importSnapshot
  simp only [henv.manifest, hinfo, hmanifest.valid]
  rw [hname, h.holds.latestHeight hmanifest.segment h.bound]
  refine importLoop_complete hmanifest.name hmanifest.segment env concurrency final.epochs cache
    tip 0 hmanifest.within hnode hmanifest.consecutive henv.serves h.holds ?_
  intro entry hin
  have hfirst := hmanifest.first entry hin
  refine ⟨fun _ => hfirst, ?_⟩
  rintro t rfl
  have hle := (show Holds block low t cache from h.holds).le
  omega

theorem OnChain.reaches (hmanifest : ManifestOf chain block low high final) {cache : Cache}
    {native : List Nat} {tip : Option Nat} (h : OnChain block low high final native tip cache)
    {env : ImportEnv} (henv : AnsweredRun chain block final env) (concurrency : Nat)
    {last : EpochEntry} (hlast : final.epochs.getLast? = some last) :
    ∃ cache', importSnapshot env cache concurrency
        = (cache', .returned (.ok (some (max (tip.getD last.stop) last.stop)))) ∧
      Holds block low (max (tip.getD last.stop) last.stop) cache' := by
  have hle := stop_le_last hmanifest.consecutive (fun e he => (hmanifest.within e he).2.1) hlast
  obtain ⟨cache', heq, hholds⟩ := h.answered hmanifest henv concurrency
  rw [finalTip_eq hlast hle] at heq hholds
  exact ⟨cache', heq, hholds⟩

theorem importLoop_skips (env : ImportEnv) (nodeTip concurrency : Nat) (cache : Cache) {t : Nat} :
    ∀ (entries : List EpochEntry) (request : Nat), (∀ entry ∈ entries, entry.stop ≤ t) →
      importLoop env chain nodeTip concurrency cache (some t) request entries
        = (cache, .returned (.ok (some t))) := by
  intro entries
  induction entries with
  | nil =>
      intro request _
      rfl
  | cons entry entries ih =>
      intro request hheld
      have hskip : entryAction (some t) nodeTip entry = .skip := by
        have := hheld entry List.mem_cons_self
        rw [entryAction_eq, if_pos]
        simp only [nextHeight]
        omega
      rw [importLoop, hskip]
      exact ih (request + 1) fun e he => hheld e (List.mem_cons_of_mem _ he)

/-- A run with nothing left to take leaves the cache as it is. -/
theorem importSnapshot_again {env : ImportEnv} {cache : Cache} {tip : Option Nat}
    (hmanifest : env.manifest = .ready (.ok final)) (hvalid : validateManifest final chain = .ok ())
    (htip : cache.latestHeight = tip)
    (hheld : ∀ entry ∈ final.epochs, ∃ t, tip = some t ∧ entry.stop ≤ t) (concurrency : Nat) :
    (importSnapshot env cache concurrency).1 = cache ∧
      ∀ info, env.blockchainInfo = .ready (.ok info) → info.chain = chain →
        (importSnapshot env cache concurrency).2 = .returned (.ok tip) := by
  have hloop : ∀ nodeTip, importLoop env final.chain nodeTip concurrency cache tip 0 final.epochs
      = (cache, .returned (.ok tip)) := by
    intro nodeTip
    rcases hepochs : final.epochs with _ | ⟨entry, entries⟩
    · rfl
    · rw [hepochs] at hheld
      obtain ⟨t, rfl, -⟩ := hheld entry List.mem_cons_self
      refine importLoop_skips env nodeTip concurrency cache _ 0 ?_
      intro e he
      obtain ⟨t', heq, hle⟩ := hheld e he
      obtain rfl := Option.some.inj heq
      exact hle
  unfold importSnapshot
  simp only [hmanifest]
  refine ⟨?_, ?_⟩
  · rcases env.blockchainInfo with (error | info) | _
    · rfl
    · simp only
      rcases validateManifest final info.chain with error | u
      · rfl
      · simp only [htip, hloop]
    · rfl
  · rintro info hinfo rfl
    simp only [hinfo, hvalid, htip, hloop]

/-- **An interrupted import resumes to the same result.** -/
theorem import_resumes (hmanifest : ManifestOf chain block low high final) {cache : Cache}
    {native : List Nat} (hresumed : Resumed chain block high final cache native)
    {env : ImportEnv} (henv : AnsweredRun chain block final env) (concurrency : Nat)
    {fresh : ImportEnv} (hfresh : AnsweredRun chain block final fresh) (freshConcurrency : Nat) :
    ∃ cache' tip single singleTip,
      importSnapshot env cache concurrency = (cache', .returned (.ok tip)) ∧
      importSnapshot fresh Cache.empty freshConcurrency = (single, .returned (.ok singleTip)) ∧
      (∀ entry ∈ final.epochs, ∀ height, entry.start ≤ height → height ≤ entry.stop →
        single.blocks.get height = some (Prost.encode (block height)) ∧
        cache'.blocks.get height = single.blocks.get height) ∧
      cache'.snapshotBaseHeight = single.snapshotBaseHeight ∧
      (∀ height value, cache'.blocks.get height = some value →
        (∃ entry ∈ final.epochs, entry.start ≤ height ∧ height ≤ entry.stop) ∨
        (height ∈ native ∧ (∀ entry ∈ final.epochs, entry.stop < height) ∧
          value = Prost.encode (block height))) ∧
      ∀ (again : ImportEnv) (againConcurrency : Nat), again.manifest = .ready (.ok final) →
        (importSnapshot again cache' againConcurrency).1 = cache' ∧
        ∀ info, again.blockchainInfo = .ready (.ok info) → info.chain = chain →
          (importSnapshot again cache' againConcurrency).2 = .returned (.ok tip) := by
  obtain ⟨tip, hon⟩ := hresumed.onChain hmanifest
  have hempty : OnChain block low high final [] none Cache.empty := onChain_empty []
  rcases hlast : final.epochs.getLast? with _ | last
  · -- Nothing was ever published, so nothing landed.
    have hepochs : final.epochs = [] := List.getLast?_eq_none_iff.mp hlast
    obtain rfl : tip = none := by
      rcases tip with _ | t
      · rfl
      · exact absurd hepochs (hon.landed t rfl)
    obtain ⟨cache', heq, hholds⟩ := hon.answered hmanifest henv concurrency
    obtain ⟨single, hsingle, hholds₁⟩ := hempty.answered hmanifest hfresh freshConcurrency
    rw [hepochs] at heq hholds hsingle hholds₁
    obtain rfl : cache' = Cache.empty := hholds
    obtain rfl : single = Cache.empty := hholds₁
    rw [hepochs]
    refine ⟨_, _, _, _, heq, hsingle, nofun, rfl, nofun, ?_⟩
    intro again againConcurrency hagain
    exact importSnapshot_again hagain hmanifest.valid rfl (by simp [hepochs]) againConcurrency
  · have hlastIn := List.mem_of_getLast? hlast
    obtain ⟨first, hfirst⟩ : ∃ first, final.epochs.head? = some first :=
      ⟨_, List.head?_eq_some_head (List.ne_nil_of_mem hlastIn)⟩
    have hstart := hmanifest.first first hfirst
    have hbounds : ∀ entry ∈ final.epochs, entry.start ≤ entry.stop :=
      fun e he => (hmanifest.within e he).2.1
    have hle := stop_le_last hmanifest.consecutive hbounds hlast
    have hhigh := (hmanifest.within last hlastIn).2.2
    obtain ⟨cache', heq, hholds⟩ := hon.reaches hmanifest henv concurrency hlast
    obtain ⟨single, hsingle, hholds₁⟩ := hempty.reaches hmanifest hfresh freshConcurrency hlast
    rw [Option.getD_none, Nat.max_self] at hsingle hholds₁
    have htop : max (tip.getD last.stop) last.stop ≤ high := by
      rcases tip with _ | t
      · rw [Option.getD_none]
        omega
      · have := hon.bound t rfl
        rw [Option.getD_some]
        omega
    refine ⟨_, _, _, _, heq, hsingle, ?_, ?_, ?_, ?_⟩
    · intro entry hin height hlow hstop
      have hwithin := hmanifest.within entry hin
      have hentry := hle entry hin
      have hheld₁ := hholds₁.get_eq hmanifest.segment hhigh height
      have hheld := hholds.get_eq hmanifest.segment htop height
      rw [if_pos ⟨hwithin.1.trans hlow, hstop.trans hentry⟩] at hheld₁
      rw [if_pos ⟨hwithin.1.trans hlow, (hstop.trans hentry).trans (Nat.le_max_right _ _)⟩] at hheld
      exact ⟨hheld₁, hheld.trans hheld₁.symm⟩
    · rw [hholds.base, hholds₁.base]
    · intro height value hvalue
      rw [hholds.get_eq hmanifest.segment htop] at hvalue
      by_cases hin : low ≤ height ∧ height ≤ max (tip.getD last.stop) last.stop
      · rw [if_pos hin] at hvalue
        by_cases habove : height ≤ last.stop
        · exact Or.inl (entries_cover hmanifest.consecutive hfirst hlast (hstart ▸ hin.1) habove)
        · right
          rcases tip with _ | t
          · rw [Option.getD_none] at hin
            omega
          · rw [Option.getD_some] at hin
            refine ⟨?_, ?_, (Option.some.inj hvalue).symm⟩
            · rcases hon.native t rfl height (by omega) with hnative | ⟨entry, he, hstop⟩
              · exact hnative
              · have := hle entry he
                omega
            · intro entry he
              have := hle entry he
              omega
      · rw [if_neg hin] at hvalue
        cases hvalue
    · intro again againConcurrency hagain
      refine importSnapshot_again hagain hmanifest.valid
        (hholds.latestHeight hmanifest.segment htop) ?_ againConcurrency
      intro entry he
      exact ⟨_, rfl, (hle entry he).trans (Nat.le_max_right _ _)⟩

end

/-! ### A run that is dropped, resumed and overtaken -/

/-- The one block of a published epoch. -/
def soleRows : List (Nat × Bytes) := [(9999, Prost.encode (emptyBlock 9999))]

def soleEntry : EpochEntry where
  index := 0
  start := 9999
  stop := 9999
  bytes := (bodyOf "main" 9999 soleRows).length
  contentDigest := hexEncode (contentDigest (bodyOf "main" 9999 soleRows))
  anchor := hexEncode (anchorFinish (foldAnchor 9999 [] [(emptyBlock 9999).hash]))

def soleManifest : Manifest := ⟨formatVersion, "main", epochSize, 9999, 10000, [soleEntry]⟩

/-- What a run sees, the body of the epoch coming back or not. -/
def soleEnv (dropped : Bool) : ImportEnv where
  manifest := .ready (.ok soleManifest)
  blockchainInfo := .ready (.ok ⟨"main", 10000, wireToDisplayHex (emptyBlock 10000).hash⟩)
  epoch _ _ _ := if dropped then .dropped else .ready (.ok (bodyOf "main" 9999 soleRows))
  lookup _ := .ready ⟨id, fun _ => .answered (.ok [wireToDisplayHex (emptyBlock 9999).hash])⟩

theorem soleEntry_served :
    ServedBody "main" emptyBlock soleEntry (bodyOf "main" 9999 soleRows) := by
  refine ⟨soleRows, ⟨Nat.le_refl _, rfl, ?_, rfl, by decide +kernel, rfl, rfl⟩, rfl⟩
  intro row hrow
  obtain rfl := List.mem_singleton.mp hrow
  exact Prost.decode_encode _

theorem soleManifest_of : ManifestOf "main" emptyBlock 9999 10000 soleManifest := by
  refine ⟨by decide, ⟨fun _ _ _ => rfl, ?_, by decide⟩, ?_, ?_, ?_⟩
  · intro height _ _
    exact ⟨rfl, by simp [Grows, emptyBlock, CompactBlock.carried]⟩
  · have hentry : checkEntry 9999 none soleEntry = .ok () :=
      checkEntry_eq_ok.mpr ⟨Nat.le_refl 9999, by decide, by decide, rfl⟩
    refine validateManifest_eq_ok.mpr ⟨rfl, rfl, rfl, ?_⟩
    show (checkEntry 9999 none soleEntry >>= fun _ => .ok ()) = .ok ()
    rw [hentry]
    rfl
  · intro entry hin
    obtain rfl := List.mem_singleton.mp hin
    exact ⟨Nat.le_refl _, Nat.le_refl _, by decide⟩
  · rintro entry ⟨⟩
    rfl

theorem soleEnv_honest (dropped : Bool) :
    HonestRun "main" emptyBlock soleManifest (soleEnv dropped) := by
  intro found hfound
  obtain rfl := Except.ok.inj (Await.ready.inj hfound)
  refine ⟨rfl, List.prefix_refl _, ?_⟩
  intro i entry body hentry hbody
  obtain rfl := List.mem_singleton.mp (List.mem_of_getElem? hentry)
  rcases dropped with _ | _
  · obtain rfl := Except.ok.inj (Await.ready.inj hbody)
    exact soleEntry_served
  · cases hbody

theorem soleEnv_answered : AnsweredRun "main" emptyBlock soleManifest (soleEnv false) := by
  refine ⟨rfl, ⟨_, rfl, rfl, ?_⟩, ?_⟩
  · intro entry hin
    obtain rfl := List.mem_singleton.mp hin
    decide
  · intro i entry hentry
    obtain rfl := List.mem_singleton.mp (List.mem_of_getElem? hentry)
    refine ⟨_, _, rfl, soleEntry_served, rfl, ?_⟩
    intro number batch hbatch
    have hsingle : batch ∈ lookupBatches 9999 9999 := List.mem_of_getElem? hbatch
    rw [show lookupBatches 9999 9999 = [[9999]] by decide] at hsingle
    obtain rfl := List.mem_singleton.mp hsingle
    rfl

theorem soleEnv_resumes :
    ∃ cache, Resumed "main" emptyBlock 10000 soleManifest cache [10000] ∧
      ∃ cache' tip, importSnapshot (soleEnv false) cache 1 = (cache', .returned (.ok tip)) ∧
        cache'.blocks.get 9999 = some (Prost.encode (emptyBlock 9999)) := by
  have hdropped := (Resumed.empty.run (soleEnv true) 1 (soleEnv_honest true) :
    Resumed "main" emptyBlock 10000 soleManifest _ [])
  obtain ⟨tip, hon⟩ := hdropped.onChain soleManifest_of
  obtain ⟨landed, hland, hholds⟩ := hon.reaches soleManifest_of soleEnv_answered 1
    (show soleManifest.epochs.getLast? = some soleEntry from rfl)
  have hempty : (importSnapshot (soleEnv true) Cache.empty 1).1 = Cache.empty := by decide +kernel
  have hlanded := hdropped.run (soleEnv false) 1 (soleEnv_honest false)
  obtain rfl : tip = none := by
    rw [← hon.holds.latestHeight soleManifest_of.segment hon.bound, hempty]
    rfl
  rw [hland] at hlanded
  have htip : landed.latestHeight = some 9999 :=
    hholds.latestHeight soleManifest_of.segment (by decide)
  have hresumed := hlanded.ingest htip 1 (Nat.le_refl 10000)
  refine ⟨_, hresumed, ?_⟩
  obtain ⟨cache', tip', single, singleTip, himport, -, hheld, -⟩ := import_resumes soleManifest_of
    hresumed soleEnv_answered 1 soleEnv_answered 1
  obtain ⟨hsingle, hsame⟩ := hheld soleEntry (List.mem_singleton_self _) 9999 (Nat.le_refl _)
    (Nat.le_refl _)
  exact ⟨cache', tip', himport, hsame.trans hsingle⟩

end Lightwalletd
