/-
An instance over its whole life, one process after the other.

A process may be killed between any two transactions, and the next one finds what it
left: after a startup that was interrupted, between two events of the ingestor's loop,
or with the digest walk somewhere in between.  `Lived` is what that can be.  Whatever
the node, the snapshot peer and the wallets did, it passes the check of a cache that is
opened, and coming up again neither fails nor drops anything that no lever names.
-/
import Lightwalletd.Proofs.Import
import Lightwalletd.Proofs.Loop
import Lightwalletd.Proofs.Recovery
import Lightwalletd.Proofs.Resume
import Lightwalletd.Proofs.Window
import Lightwalletd.Startup

namespace Lightwalletd

section

variable [Prost]

/-- What every process leaves: linked blocks, and readable metadata that describe them. -/
structure Cache.Sound (cache : Cache) : Prop where
  good : cache.Good
  metaOk : cache.MetaOk

variable {cache cache' : Cache}

theorem Cache.sound_empty : Cache.empty.Sound := ⟨Cache.chained_empty, Cache.metaOk_empty⟩

theorem Cache.Sound.removeFrom (h : cache.Sound) (cut : Nat) : (cache.removeFrom cut).1.Sound := by
  obtain ⟨base, hbase⟩ := h.metaOk.readable
  refine ⟨Cache.Chained.removeFrom h.good cut, ?_⟩
  rw [Cache.removeFrom_eq hbase]
  exact h.metaOk.truncated hbase cut

theorem Extended.sound {start : Nat} (h : Extended start cache cache') (hsound : cache.Sound) :
    cache'.Sound := by
  refine ⟨h.good hsound.good, ?_⟩
  obtain ⟨blocks, next, happ, -⟩ := h
  exact happ.metaOk trivial hsound.metaOk

theorem Landed.metaOk {P : Nat × String → Prop} {entry : EpochEntry} {blocks : List CompactBlock}
    (h : Landed P cache entry blocks cache') (hm : cache.MetaOk) : cache'.MetaOk := by
  obtain ⟨next, -, -, -, -, -, happ⟩ := h.appended
  refine happ.metaOk ?_ hm
  rcases hlatest : cache.latestHeight with _ | tip
  · have hempty : cache.blocks.rows = [] := by
      rw [Cache.latestHeight, Option.map_eq_none_iff] at hlatest
      exact Table.last_eq_none_iff.mp hlatest
    refine ⟨hempty, fun block rest hblocks => ?_⟩
    obtain ⟨first, more, hcons, hfirst⟩ : ∃ first more, blocks = first :: more ∧ first = block := by
      rcases blocks with _ | ⟨first, more⟩
      · cases hblocks
      · exact ⟨first, more, rfl, Except.ok.inj (List.cons.inj hblocks).1⟩
    have hheights := happ.heights
    rw [hcons, List.map_cons, List.length_cons, List.range'_succ] at hheights
    rw [← hfirst]
    exact (List.cons.inj hheights).1.symm
  · trivial

theorem Imported.metaOk {P : Nat × String → Prop} {parts : List (EpochEntry × List CompactBlock)}
    (h : Imported P cache parts cache') (hm : cache.MetaOk) : cache'.MetaOk := by
  induction h with
  | nil => exact hm
  | cons hland _ ih => exact ih (hland.metaOk hm)

section

variable [Sha256]

theorem Cache.Sound.imported (h : cache.Sound) (env : ImportEnv) (concurrency : Nat) :
    (importSnapshot env cache concurrency).1.Sound := by
  obtain ⟨parts, himported, -⟩ := importSnapshot_imported (P := fun _ => True) env concurrency
    h.good fun _ _ _ _ _ _ _ => trivial
  exact ⟨himported.chained_cache (fun _ _ hab => hab.1) h.good, himported.metaOk h.metaOk⟩

/-! ### A life

Whatever a process has done to its cache, the next one finds it sound, and the levers
and the bootstrap are calls like others.
-/

/-- The caches an instance may be left with: any startup, any event of an ingestor's loop
over any floor, and any digest that is stored may have been the last thing that was
done to it. -/
inductive Lived [BlockParser] : Cache → Prop
  | fresh : Lived Cache.empty
  | started {cache : Cache} (h : Lived cache) (config : StartupConfig) (info : GetBlockchainInfo) :
      Lived (startup config info cache).1
  | event {loop : IngestLoop} (h : Lived loop.cache) (start : Nat) (config : IngestConfig)
      (event : LoopEvent) : Lived (event.apply start config loop).cache
  | digest {cache : Cache} (h : Lived cache) (index : Nat) (row : Bytes) (hindex : index ≤ u64Max) :
      Lived (cache.setEpochDigest index row).1

omit [Sha256] in
theorem Cache.Sound.validateLight (h : cache.Sound) : cache.validateLight = .ok () := by
  rcases hlast : cache.blocks.last with _ | ⟨last, w⟩
  · exact Cache.validateLight_of_empty (Table.last_eq_none_iff.mp hlast)
  · obtain ⟨first, hfirst⟩ : ∃ first, cache.blocks.first = some first := by
      rcases hnone : cache.blocks.first with _ | first
      · rw [Table.last, Table.first_eq_none_iff.mp hnone] at hlast
        cases hlast
      · exact ⟨first, rfl⟩
    refine Cache.validateLight_of_segment hfirst hlast h.good.contiguous ?_
    obtain ⟨block, hdecode, hheight⟩ := h.good.rows _ (Table.last_mem hlast)
    unfold Cache.goodRow
    rw [Table.get_eq_some_iff.mpr (Table.last_mem hlast)]
    simp only at hdecode hheight
    simp [hdecode, hheight]

omit [Sha256] in
/-- A truncation from the bottom is a fresh cache, its metadata included. -/
theorem Cache.Sound.truncateFrom_zero (h : cache.Sound) :
    cache.truncateFrom 0 = (Cache.empty, .ok ()) := by
  obtain ⟨base, hbase⟩ := h.metaOk.readable
  rw [Cache.truncateFrom, Cache.removeFrom_eq hbase]
  have hblocks : (cache.truncated 0 base).blocks = Table.empty := by
    refine Table.ext_rows (List.filter_eq_nil_iff.mpr fun row _ => ?_)
    simp
  have hmeta : (cache.truncated 0 base).metaRows = Table.empty := by
    refine Table.ext_rows (List.filter_eq_nil_iff.mpr fun row hrow => ?_)
    rcases h.metaOk.keys row hrow with hkey | ⟨index, hindex, hkey⟩
    · rcases h.metaOk.snapshotBaseHeight_eq with ⟨-, hnone⟩ | ⟨b, w, -, hsome, -, -⟩
      · have hget := Table.get_eq_some_iff.mpr (show (row.1, row.2) ∈ cache.metaRows.rows from hrow)
        rw [hkey, hnone] at hget
        cases hget
      · obtain rfl := Except.ok.inj (hbase.symm.trans hsome)
        simp [keepsMeta, hkey]
    · rw [hkey]
      simp [keepsMeta, epochDigestKey_ne_base, epochDigestIndex_key hindex, epochIndex]
  show ((⟨(cache.truncated 0 base).blocks, (cache.truncated 0 base).metaRows⟩ : Cache), _) = _
  rw [hblocks, hmeta]
  rfl

/-- Whether a height is one that the levers drop. -/
def StartupConfig.Names (config : StartupConfig) (height : Nat) : Prop :=
  config.redownload = true ∨ ∃ low, config.syncFromHeight = some low ∧ low ≤ height

omit [Sha256] in
/-- What the levers leave: the heights they do not name. -/
theorem Cache.Sound.levers (h : cache.Sound) (config : StartupConfig) :
    ∃ kept, pullLevers config cache = (kept, .ok ()) ∧ kept.Sound ∧
      (∀ height, config.Names height → kept.blocks.get height = none) ∧
      (∀ height, ¬ config.Names height → kept.blocks.get height = cache.blocks.get height) ∧
      (config.redownload = false → config.syncFromHeight = none → kept = cache) ∧
      (config.redownload = true → kept = Cache.empty) := by
  obtain ⟨base, hbase⟩ := h.metaOk.readable
  unfold pullLevers
  rcases hredownload : config.redownload with _ | _
  · rw [if_neg Bool.false_ne_true]
    rcases hsync : config.syncFromHeight with _ | low
    · refine ⟨cache, rfl, h, fun height hnamed => ?_, fun _ _ => rfl, fun _ _ => rfl, nofun⟩
      obtain htrue | ⟨low, hlow, -⟩ := hnamed
      · rw [hredownload] at htrue
        cases htrue
      · rw [hsync] at hlow
        cases hlow
    · have hnames : ∀ height, config.Names height ↔ low ≤ height := by
        intro height
        simp [StartupConfig.Names, hredownload, hsync]
      refine ⟨_, Cache.removeFrom_eq hbase low, ?_, fun height hnamed => ?_,
        fun height hnamed => ?_, fun _ => nofun, nofun⟩
      · have hsound := h.removeFrom low
        rw [Cache.removeFrom_eq hbase] at hsound
        exact hsound
      · rw [Cache.truncated_get, if_neg (Nat.not_lt.mpr ((hnames height).mp hnamed))]
      · rw [Cache.truncated_get, if_pos (Nat.lt_of_not_le (mt (hnames height).mpr hnamed))]
  · rw [if_pos rfl, h.truncateFrom_zero]
    exact ⟨_, rfl, Cache.sound_empty, fun _ _ => rfl,
      fun height hnamed => absurd (Or.inl hredownload) hnamed, nofun, fun _ => rfl⟩

/-- What a bootstrap leaves: everything, and what it brought. -/
theorem Cache.Sound.bootstrap (h : cache.Sound) (config : StartupConfig) :
    ∃ kept interrupted, bootstrapFromSnapshot config cache = (kept, interrupted) ∧ kept.Sound ∧
      (∀ height value, cache.blocks.get height = some value →
        kept.blocks.get height = some value) ∧
      (config.snapshot = none → kept = cache ∧ interrupted = false) := by
  unfold bootstrapFromSnapshot
  rcases config.snapshot with _ | env
  · exact ⟨cache, false, rfl, h, fun _ _ hget => hget, fun _ => ⟨rfl, rfl⟩⟩
  · have hsound := h.imported env config.concurrency
    obtain ⟨parts, himported, -⟩ := importSnapshot_imported (P := fun _ => True) env
      config.concurrency h.good fun _ _ _ _ _ _ _ => trivial
    have hkeeps : ∀ height value, cache.blocks.get height = some value →
        (importSnapshot env cache config.concurrency).1.blocks.get height = some value := by
      intro height value hget
      rw [Table.get_eq_some_iff] at hget ⊢
      rw [himported.rows_eq]
      exact List.mem_append_left _ hget
    dsimp only
    rcases himport : importSnapshot env cache config.concurrency with ⟨kept, result | _⟩
    · rw [himport] at hsound hkeeps
      exact ⟨kept, false, rfl, hsound, hkeeps, nofun⟩
    · rw [himport] at hsound hkeeps
      exact ⟨kept, true, rfl, hsound, hkeeps, nofun⟩

/-- What a startup comes to, from a sound cache whose levers and bootstrap are known. -/
theorem startup_eq {levered kept : Cache} {interrupted : Bool} {base : Option Nat}
    {config : StartupConfig} {info : GetBlockchainInfo}
    (hname : validateChainName info.chain = .ok ()) (h : cache.Sound)
    (hlevers : pullLevers config cache = (levered, .ok ()))
    (hbootstrap : bootstrapFromSnapshot config levered = (kept, interrupted))
    (hbase : kept.snapshotBaseHeight = .ok base) :
    startup config info cache = (kept, .ok (if interrupted then none else
      some (effectiveStartHeight (config.startHeight.getD (defaultStartHeight info)) base))) := by
  unfold startup
  simp only [hname, checkOpened, h.validateLight, hlevers, hbootstrap]
  cases interrupted
  · simp only [hbase, Bool.false_eq_true, if_false]
  · rfl

/-- **A life keeps what every process leaves.** -/
theorem Lived.sound [BlockParser] {cache : Cache} (h : Lived cache) : cache.Sound := by
  induction h with
  | fresh => exact Cache.sound_empty
  | @started cache _ config info ih =>
      rcases hname : validateChainName info.chain with error | u
      · unfold startup
        rw [hname]
        exact ih
      obtain ⟨levered, hlevers, hlevered, -⟩ := ih.levers config
      obtain ⟨kept, interrupted, hbootstrap, hkept, -⟩ := hlevered.bootstrap config
      obtain ⟨base, hbase⟩ := hkept.metaOk.readable
      rw [startup_eq hname ih hlevers hbootstrap hbase]
      exact hkept
  | event _ start config event ih =>
      refine event.apply_invariant ?_ ?_ ih
      · rintro cache cache' ⟨cut, rfl⟩ hsound
        exact hsound.removeFrom cut
      · intro now env cache _ hsound
        rcases step_cases env cache start config with hsame | hdropped | hextended
        · rw [hsame]
          exact hsound
        · obtain ⟨cut, hcut⟩ := hdropped
          rw [hcut]
          exact hsound.removeFrom cut
        · exact hextended.sound hsound
  | @digest cache _ index row hindex ih =>
      refine ⟨ih.good.of_blocks ?_, ih.metaOk.setEpochDigest hindex row⟩
      rw [Cache.setEpochDigest_eq]

end

end

/-! ### A process that is bootstrapped, and the one after it -/

end Lightwalletd
