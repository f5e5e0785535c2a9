/-
What an append does.

`append` checks and inserts block by block inside one transaction, so there are
only two outcomes.  Either something was wrong with one of the blocks, or the
iterator failed, and the cache is untouched; or the blocks form one run of
consecutive heights right above the tip, and the block table is the old one with
one row for each of them at its end.  `append_cases` says this once, and
everything that is later proved about writes to the cache starts from it.
-/
import Lightwalletd.Cache
import Lightwalletd.Lib.Segment

namespace Lightwalletd

namespace Cache

variable [Prost]

/-- The row `append` stores for a block. -/
def rowOf (block : CompactBlock) : Nat × Bytes := (block.height, Prost.encode block)

/-- The metadata after an append that landed. -/
def metaAfter (cache : Cache) : Option Nat → Table Key Bytes
  | some base => cache.metaRows.insert snapshotBaseHeightKey (leBytes 8 base)
  | none => cache.metaRows

/-- The cache `cache'` is `cache` with the run `blocks`, starting at height `h`,
stored above its tip. -/
structure Appended (cache : Cache) (blocks : List CompactBlock) (base : Option Nat) (h : Nat)
    (cache' : Cache) : Prop where
  nonempty : blocks ≠ []
  heights : blocks.map (·.height) = List.range' h blocks.length
  join : ∀ row, cache.blocks.last = some row → h = row.1 + 1
  below : ∀ block ∈ blocks, block.height < u64Max
  rows : cache'.blocks.rows = cache.blocks.rows ++ blocks.map rowOf
  metaRows : cache'.metaRows = cache.metaAfter base

/-! ### The loop

Past the first block the loop only compares neighbours, and so it succeeds on a run or
fails.  The first block is compared with the tip, if there is one.
-/

omit [Prost] in
private theorem insert_below {table : Table Nat Bytes} {h : Nat} (value : Bytes)
    (hlow : ∀ row ∈ table.rows, row.1 < h) :
    ∀ row ∈ (table.insert h value).rows, row.1 < h + 1 := by
  intro row hrow
  rw [Table.insert_rows_of_last_lt value hlow] at hrow
  rcases List.mem_append.mp hrow with hr | hr
  · exact Nat.lt_succ_of_lt (hlow row hr)
  · rw [List.mem_singleton.mp hr]
    exact Nat.lt_succ_self _

/-- Past its first block, the loop succeeds on exactly the runs that continue it. -/
private theorem appendLoop_some {tip : Option Nat} :
    ∀ (items : List (Except CacheError CompactBlock)) (e : Nat) (table table' : Table Nat Bytes)
      (next : Option Nat), (∀ row ∈ table.rows, row.1 < e) →
      appendLoop tip (some e) table items = (table', .ok next) →
      ∃ blocks : List CompactBlock, items = blocks.map .ok ∧
        blocks.map (·.height) = List.range' e blocks.length ∧
        (∀ block ∈ blocks, block.height < u64Max) ∧
        table'.rows = table.rows ++ blocks.map rowOf ∧ next.isSome = true := by
  intro items
  induction items with
  | nil =>
      intro e table table' next _ h
      simp only [appendLoop, Prod.mk.injEq, Except.ok.injEq] at h
      obtain ⟨rfl, rfl⟩ := h
      exact ⟨[], by simp⟩
  | cons item rest ih =>
      intro e table table' next hlow h
      cases item with
      | error err => simp [appendLoop] at h
      | ok block =>
          by_cases he : block.height = e
          · by_cases hmax : block.height < u64Max
            · subst he
              simp only [appendLoop, checkNext, ne_eq, not_true_eq_false, if_false,
                if_pos hmax] at h
              have hrows := Table.insert_rows_of_last_lt (Prost.encode block) hlow
              obtain ⟨blocks, hitems, hheights, hbelow, htable, hnext⟩ :=
                ih _ _ _ _ (insert_below (Prost.encode block) hlow) h
              refine ⟨block :: blocks, by rw [hitems]; rfl, ?_, ?_, ?_, hnext⟩
              · rw [List.map_cons, hheights, List.length_cons, List.range'_succ]
              · intro b hb
                rcases List.mem_cons.mp hb with rfl | hb
                · exact hmax
                · exact hbelow b hb
              · rw [htable, hrows, List.append_assoc]
                rfl
            · simp [appendLoop, checkNext, he, he ▸ hmax] at h
          · simp [appendLoop, checkNext, he] at h

private theorem appendLoop_run (tip : Option Nat) :
    ∀ (blocks : List CompactBlock) (e : Nat) (table : Table Nat Bytes),
      blocks.map (·.height) = List.range' e blocks.length →
      (∀ block ∈ blocks, block.height < u64Max) →
      (appendLoop tip (some e) table (blocks.map .ok)).2 = .ok (some (e + blocks.length)) := by
  intro blocks
  induction blocks with
  | nil => intro e table _ _; rfl
  | cons block rest ih =>
      intro e table hheights hbelow
      rw [List.map_cons, List.length_cons, List.range'_succ, List.cons.injEq] at hheights
      obtain ⟨he, hrest⟩ := hheights
      have hmax := hbelow block (by simp)
      subst he
      simp only [List.map_cons, appendLoop, checkNext, ne_eq, not_true_eq_false, if_false,
        if_pos hmax]
      rw [ih _ _ hrest fun b hb => hbelow b (List.mem_cons_of_mem _ hb), List.length_cons,
        Nat.add_assoc, Nat.add_comm 1]

/-- The loop from its start: the first block sits above the tip, if there is one. -/
theorem appendLoop_none {items : List (Except CacheError CompactBlock)}
    {table table' : Table Nat Bytes} {next : Option Nat}
    (h : appendLoop (table.last.map (·.1)) none table items = (table', .ok next)) :
    (items = [] ∧ table' = table ∧ next = none) ∨
      ∃ (block : CompactBlock) (rest : List CompactBlock), items = (block :: rest).map .ok ∧
        (∀ row, table.last = some row → block.height = row.1 + 1) ∧
        (block :: rest).map (·.height) = List.range' block.height (rest.length + 1) ∧
        (∀ b ∈ block :: rest, b.height < u64Max) ∧
        table'.rows = table.rows ++ (block :: rest).map rowOf ∧ next.isSome = true := by
  cases items with
  | nil =>
      simp only [appendLoop, Prod.mk.injEq, Except.ok.injEq] at h
      exact Or.inl ⟨rfl, h.1.symm, h.2.symm⟩
  | cons item items =>
      refine Or.inr ?_
      cases item with
      | error err => simp [appendLoop] at h
      | ok block =>
          have hjoin : ∀ row, table.last = some row → block.height = row.1 + 1 := by
            intro row hrow
            by_contra hne
            simp [appendLoop, hrow, checkNext, hne] at h
          have hcheck : checkNext (table.last.map (·.1)) none block.height = .ok () := by
            cases hlast : table.last with
            | none => rfl
            | some row => simp [checkNext, hjoin row hlast]
          have hmax : block.height < u64Max := by
            by_contra hne
            simp [appendLoop, hcheck, hne] at h
          simp only [appendLoop, hcheck, if_pos hmax] at h
          have hlow : ∀ row ∈ table.rows, row.1 < block.height := by
            intro row hrow
            cases hlast : table.last with
            | none =>
                rw [Table.last_eq_none_iff.mp hlast] at hrow
                simp at hrow
            | some top =>
                have := Table.le_last hrow hlast
                have := hjoin top hlast
                omega
          have hrows := Table.insert_rows_of_last_lt (Prost.encode block) hlow
          obtain ⟨rest, hitems, hheights, hbelow, htable, hnext⟩ :=
            appendLoop_some _ _ _ _ _ (insert_below (Prost.encode block) hlow) h
          refine ⟨block, rest, by rw [hitems]; rfl, hjoin, ?_, ?_, ?_, hnext⟩
          · rw [List.map_cons, hheights, List.range'_succ]
          · intro b hb
            rcases List.mem_cons.mp hb with rfl | hb
            · exact hmax
            · exact hbelow b hb
          · rw [htable, hrows, List.append_assoc]
            rfl

/-! ### The transaction

The rows and the base height go into one transaction: a failure in the middle of the
loop takes back what the loop has stored.
-/

/-- **An append either changes nothing or stores one run above the tip.** -/
theorem append_cases (cache : Cache) (items : List (Except CacheError CompactBlock))
    (base : Option Nat) :
    (∃ e, cache.append items base = (cache, .error e)) ∨
      (items = [] ∧ cache.append items base = (cache, .ok ())) ∨
      ∃ (blocks : List CompactBlock) (h : Nat) (cache' : Cache), items = blocks.map .ok ∧
        cache.append items base = (cache', .ok ()) ∧ Appended cache blocks base h cache' := by
  unfold append runTxn
  rcases hloop : appendLoop (cache.blocks.last.map (·.1)) none cache.blocks items with
    ⟨table, err | next⟩
  · exact Or.inl ⟨err, by simp [hloop]⟩
  · rcases appendLoop_none hloop with
      ⟨hnil, -, hnext⟩ | ⟨block, rest, hitems, hjoin, hheights, hbelow, hrows, hnext⟩
    · subst hnext
      exact Or.inr (Or.inl ⟨hnil, by simp [hloop]⟩)
    · obtain ⟨n, rfl⟩ := Option.isSome_iff_exists.mp hnext
      refine Or.inr (Or.inr ⟨block :: rest, block.height, ⟨table, cache.metaAfter base⟩, hitems,
        ?_, ⟨by simp, hheights, hjoin, hbelow, hrows, rfl⟩⟩)
      simp only [hloop]
      cases base <;> rfl

theorem append_run {cache : Cache} {blocks : List CompactBlock} {base : Option Nat} {h : Nat}
    (hne : blocks ≠ []) (hheights : blocks.map (·.height) = List.range' h blocks.length)
    (hjoin : ∀ row, cache.blocks.last = some row → h = row.1 + 1)
    (hbelow : ∀ block ∈ blocks, block.height < u64Max) :
    ∃ cache', cache.append (blocks.map .ok) base = (cache', .ok ()) ∧
      Appended cache blocks base h cache' := by
  rcases append_cases cache (blocks.map .ok) base with
    ⟨e, herr⟩ | ⟨hnil, -⟩ | ⟨blocks', h', cache', hmap, hok, happ⟩
  · exfalso
    cases blocks with
    | nil => exact hne rfl
    | cons block rest =>
        rw [List.map_cons, List.length_cons, List.range'_succ, List.cons.injEq] at hheights
        obtain ⟨hb, hrest⟩ := hheights
        have hcheck : checkNext (cache.blocks.last.map (·.1)) none block.height = .ok () := by
          cases hlast : cache.blocks.last with
          | none => rfl
          | some row => simp [checkNext, hb, hjoin row hlast]
        have hmax := hbelow block (by simp)
        have hloop := appendLoop_run (cache.blocks.last.map (·.1)) rest (block.height + 1)
          (cache.blocks.insert block.height (Prost.encode block)) (by rw [hb]; exact hrest)
          (fun b hb => hbelow b (List.mem_cons_of_mem _ hb))
        have hfst : appendLoop (cache.blocks.last.map (·.1)) none cache.blocks
            ((block :: rest).map .ok)
            = ((appendLoop (cache.blocks.last.map (·.1)) (some (block.height + 1))
                (cache.blocks.insert block.height (Prost.encode block)) (rest.map .ok)).1,
              .ok (some (block.height + 1 + rest.length))) := by
          rw [List.map_cons, appendLoop, hcheck]
          simp only [if_pos hmax]
          exact Prod.ext rfl hloop
        simp only [append, runTxn, hfst] at herr
        simp at herr
  · exact absurd (List.map_eq_nil_iff.mp hnil) hne
  · have hblocks : blocks' = blocks :=
      (List.map_injective_iff.mpr (fun a b hab => Except.ok.inj hab) hmap).symm
    subst hblocks
    refine ⟨cache', hok, ?_⟩
    have hh : h' = h := by
      cases blocks' with
      | nil => exact absurd rfl hne
      | cons block rest =>
          have := happ.heights
          rw [hheights, List.length_cons, List.range'_succ, List.range'_succ] at this
          exact (List.cons.inj this).1.symm
    rw [← hh]
    exact happ

end Cache

end Lightwalletd
