/-
What the mock chain keeps whatever is done to it.

An operation of the control plane is made of a few small steps: a reset, the staging
of one block or one transaction, emptying a staging area, adding one block, mining
one transaction, linking the chain.  An operation that fails part-way has done some
of them.  So what every small step keeps holds in every state, also after a failure:
`Kept` collects the small steps, and `Kept.run` is the only induction over operations.

The invariant is local.  `Tallied` says of each block that its coinbase has the
height of its place and that its tree sizes are those of the block below plus its own
notes; the sums over whole prefixes follow from it.
-/
import Lightwalletd.Codec
import Lightwalletd.Darkside.State
import Lightwalletd.Lib.Run

namespace Lightwalletd

namespace DarksideState

section

variable [Librustzcash]

/-! ### One block, one transaction -/

/-- Adding a block fails and changes nothing, or puts it in its place. -/
theorem addBlockActive_cases (s : DarksideState) (raw : Bytes) :
    (∃ e, s.addBlockActive raw = (s, .error e)) ∨
    ∃ header coinbase rest height sizes, splitBlock raw = .ok (header, coinbase :: rest) ∧
      coinbaseHeightFromRaw coinbase = .ok height ∧ s.startHeight ≤ height ∧
      height ≤ s.startHeight + s.active.length ∧
      addCounts (s.sizesBelow (height - s.startHeight)) (coinbase :: rest) = .ok sizes ∧
      s.addBlockActive raw = ({ s with
        active := s.active.take (height - s.startHeight) ++ [⟨header, coinbase :: rest, sizes⟩] },
        .ok ()) := by
  rcases hsplit : splitBlock raw with e | ⟨header, txs⟩
  · exact Or.inl ⟨_, by simp only [addBlockActive, hsplit]; rfl⟩
  cases txs with
  | nil => exact Or.inl ⟨_, by simp only [addBlockActive, hsplit]; rfl⟩
  | cons coinbase rest =>
      rcases hheight : coinbaseHeightFromRaw coinbase with e | height
      · exact Or.inl ⟨_, by simp only [addBlockActive, hsplit, hheight]; rfl⟩
      by_cases hgap : height > s.startHeight + s.active.length
      · exact Or.inl ⟨_, by simp only [addBlockActive, hsplit, hheight, hgap, if_true]; rfl⟩
      by_cases hlow : height < s.startHeight
      · refine Or.inl ?_
        simp only [addBlockActive, hsplit, hheight, hgap, hlow, if_true, if_false]
        exact ⟨_, rfl⟩
      rcases hsizes : addCounts (s.sizesBelow (height - s.startHeight)) (coinbase :: rest) with
        e | sizes
      · refine Or.inl ?_
        simp only [addBlockActive, hsplit, hheight, hgap, hlow, if_false, hsizes]
        exact ⟨_, rfl⟩
      · refine Or.inr ⟨header, coinbase, rest, height, sizes, rfl, hheight, by omega, by omega,
          hsizes, ?_⟩
        simp only [addBlockActive, hsplit, hheight, hgap, hlow, if_false, hsizes]

/-- Mining a transaction fails and changes nothing, or grows its block and the later
ones. -/
theorem mineTransaction_cases (s : DarksideState) (height : Nat) (raw : Bytes) :
    (∃ e, s.mineTransaction height raw = (s, .error e)) ∨
    ∃ counts, s.startHeight ≤ height ∧ height - s.startHeight < s.active.length ∧
      shieldedCounts raw = .ok counts ∧
      s.mineTransaction height raw = ({ s with
        active := growFrom (height - s.startHeight) counts
          (s.active.modify (height - s.startHeight) (mineInto raw)) }, .ok ()) := by
  by_cases hlow : height < s.startHeight
  · exact Or.inl ⟨_, by simp only [mineTransaction, hlow, if_true]; rfl⟩
  by_cases hhigh : height - s.startHeight ≥ s.active.length
  · exact Or.inl ⟨_, by simp only [mineTransaction, hlow, hhigh, if_true, if_false]; rfl⟩
  rcases hcounts : shieldedCounts raw with e | counts
  · exact Or.inl ⟨_, by simp only [mineTransaction, hlow, hhigh, if_false, hcounts]; rfl⟩
  · refine Or.inr ⟨counts, by omega, by omega, rfl, ?_⟩
    simp only [mineTransaction, hlow, hhigh, if_false, hcounts]

/-- Staging a block fails and changes nothing, or stages a block of a known height. -/
theorem stageBlock_cases (s : DarksideState) (raw : Bytes) :
    (∃ e, s.stageBlock raw = (s, .error e)) ∨
    ∃ height, rawBlockHeight raw = .ok height ∧ s.startHeight ≤ height ∧
      s.stageBlock raw = ({ s with stagedBlocks := s.stagedBlocks ++ [raw] }, .ok ()) := by
  by_cases hreset : s.wasReset = true
  · rcases hheight : rawBlockHeight raw with e | height
    · exact Or.inl ⟨_, by simp only [stageBlock, hreset, hheight]; rfl⟩
    by_cases hlow : height < s.startHeight
    · exact Or.inl ⟨_, by simp only [stageBlock, hreset, hheight, hlow]; rfl⟩
    · exact Or.inr ⟨height, rfl, by omega, by simp only [stageBlock, hreset, hheight, hlow]; rfl⟩
  · exact Or.inl ⟨_, by simp only [stageBlock, hreset]; rfl⟩

theorem stageTransaction_cases (s : DarksideState) (height : Nat) (raw : Bytes) :
    (∃ e, s.stageTransaction height raw = (s, .error e)) ∨
    ∃ counts, shieldedCounts raw = .ok counts ∧
      s.stageTransaction height raw =
        ({ s with stagedTxs := s.stagedTxs ++ [(height, raw)] }, .ok ()) := by
  by_cases hreset : s.wasReset = true
  · rcases hcounts : shieldedCounts raw with e | counts
    · exact Or.inl ⟨_, by simp only [stageTransaction, hreset, hcounts]; rfl⟩
    · exact Or.inr ⟨counts, rfl, by simp only [stageTransaction, hreset, hcounts]; rfl⟩
  · exact Or.inl ⟨_, by simp only [stageTransaction, hreset]; rfl⟩

/-! ### Small steps

An operation that fails may have done part of its work.  What each small step keeps is
therefore kept by every operation, wherever it stops, and by every run.
-/

/-- The part of the state that the presented chain depends on. -/
def core (s : DarksideState) :
    Bool × Nat × TreeSizes × Int × List ActiveBlock × List Bytes × List (Nat × Bytes) :=
  (s.wasReset, s.startHeight, s.startSizes, s.latestHeight, s.active, s.stagedBlocks, s.stagedTxs)

variable [Sha256]

/-- Link the chain and present it up to a height. -/
def present (s : DarksideState) (latestHeight : Int) : DarksideState :=
  { s with active := setPrevhash none s.active, latestHeight := latestHeight }

/-- A property of states that applying keeps until it links the chain. -/
structure KeptApplying (P : DarksideState → Prop) : Prop where
  unstageBlocks : ∀ s, P s → P { s with stagedBlocks := [] }
  addBlock : ∀ s raw, P s → P (s.addBlockActive raw).1
  unstageTxs : ∀ s, P s → P { s with stagedTxs := [] }
  mine : ∀ s height raw, P s → P (s.mineTransaction height raw).1

/-- A property of states that every small step keeps. -/
structure Kept (P : DarksideState → Prop) : Prop extends KeptApplying P where
  new : P new
  core : ∀ s s', P s → s'.core = s.core → P s'
  reset : ∀ s info, P (reset s info)
  stageBlock : ∀ s raw, P s → P (s.stageBlock raw).1
  stageTransaction : ∀ s height raw, P s → P (s.stageTransaction height raw).1
  link : ∀ s latestHeight, P s → P (s.present latestHeight)

variable {P : DarksideState → Prop}

/-- What staging a block keeps, staging synthetic ones keeps. -/
private theorem stageSynthetic_keeps (hstage : ∀ s raw, P s → P (s.stageBlock raw).1) (nonce : Int)
    (count : Nat) (height : Int) {s : DarksideState} (hs : P s) :
    P (stageSynthetic nonce count height s).1 := by
  induction count generalizing height s with
  | zero => exact hs
  | succ count ih =>
      unfold stageSynthetic
      split
      · exact hs
      · next raw _ =>
          have hkept := hstage s raw hs
          split
          · next hfail => rw [hfail] at hkept; exact hkept
          · next hok => rw [hok] at hkept; exact ih _ hkept

omit [Sha256] in
theorem addBlocks_keeps (hadd : ∀ s raw, P s → P (s.addBlockActive raw).1) {s : DarksideState}
    (hs : P s) (raws : List Bytes) : P (addBlocks s raws).1 := by
  induction raws generalizing s with
  | nil => exact hs
  | cons raw rest ih =>
      unfold addBlocks
      have hkept := hadd s raw hs
      split
      · next hfail => rw [hfail] at hkept; exact hkept
      · next hok => rw [hok] at hkept; exact ih hkept

omit [Sha256] in
theorem mineTransactions_keeps {s : DarksideState} (hs : P s) (txs : List (Nat × Bytes))
    (hmine : ∀ s, ∀ tx ∈ txs, P s → P (s.mineTransaction tx.1 tx.2).1) :
    P (mineTransactions s txs).1 := by
  induction txs generalizing s with
  | nil => exact hs
  | cons tx rest ih =>
      unfold mineTransactions
      have hkept := hmine s tx List.mem_cons_self hs
      have hrest := fun s tx hin => hmine s tx (List.mem_cons_of_mem _ hin)
      split
      · next hfail => rw [hfail] at hkept; exact hkept
      · next hok => rw [hok] at hkept; exact ih hkept hrest

omit [Sha256] in
theorem applyStagedBlocks_keeps (hadd : ∀ s raw, P s → P (s.addBlockActive raw).1)
    {s : DarksideState} (hs : P { s with stagedBlocks := [] }) : P s.applyStagedBlocks.1 := by
  have hkept := addBlocks_keeps hadd hs s.stagedBlocks
  unfold applyStagedBlocks
  split
  · next hfail => rw [hfail] at hkept; exact hkept
  · next hok =>
      rw [hok] at hkept
      split
      · exact hkept
      · exact hkept

omit [Sha256] in
theorem KeptApplying.applyStagedBlocks (h : KeptApplying P) {s : DarksideState} (hs : P s) :
    P s.applyStagedBlocks.1 :=
  applyStagedBlocks_keeps h.addBlock (h.unstageBlocks s hs)

omit [Sha256] in
theorem KeptApplying.mineStagedTransactions (h : KeptApplying P) {s : DarksideState} (hs : P s) :
    P s.mineStagedTransactions.1 :=
  mineTransactions_keeps (h.unstageTxs s hs) s.stagedTxs fun s tx _ => h.mine s tx.1 tx.2

theorem Kept.applyStaged (h : Kept P) {s : DarksideState} (hs : P s) (targetHeight : Int) :
    P (s.applyStaged targetHeight).1 := by
  unfold DarksideState.applyStaged
  split
  · exact hs
  split
  · exact hs
  have hblocks := h.applyStagedBlocks hs
  split
  · next hfail => rw [hfail] at hblocks; exact hblocks
  · next merged hok =>
      rw [hok] at hblocks
      have hmined := h.mineStagedTransactions hblocks
      split
      · next hfail => rw [hfail] at hmined; exact hmined
      · next mined hok => rw [hok] at hmined; exact h.link mined _ hmined

/-- Apart from five operations, none touches what the presented chain depends on. -/
theorem control_cases (s : DarksideState) (op : ControlOp) :
    (∃ info, op = .reset info) ∨ (∃ raw, op = .stageBlock raw) ∨
    (∃ height nonce count, op = .stageBlocksCreate height nonce count) ∨
    (∃ height raw, op = .stageTransaction height raw) ∨
    (∃ targetHeight, op = .applyStaged targetHeight) ∨ (s.control op).1.core = s.core := by
  cases op with
  | pushIncoming raw =>
      show _ ∨ _ ∨ _ ∨ _ ∨ _ ∨ (s.pushIncoming raw).1.core = s.core
      unfold pushIncoming
      split <;> simp [core]
  | addTreestate treeState =>
      show _ ∨ _ ∨ _ ∨ _ ∨ _ ∨ (s.addTreestate treeState).1.core = s.core
      unfold addTreestate
      split <;> simp [core]
  | removeTreestate height wireHash =>
      show _ ∨ _ ∨ _ ∨ _ ∨ _ ∨ (s.removeTreestate height wireHash).core = s.core
      unfold removeTreestate
      split <;> simp [core]
  | _ => simp [control, core]

theorem stageBlocksCreate_keeps (hstage : ∀ s raw, P s → P (s.stageBlock raw).1)
    (height nonce count : Int) {s : DarksideState} (hs : P s) :
    P (s.stageBlocksCreate height nonce count).1 := by
  unfold stageBlocksCreate
  split
  · exact hs
  · exact stageSynthetic_keeps hstage nonce _ height hs

theorem Kept.control (h : Kept P) {s : DarksideState} (hs : P s) (op : ControlOp) :
    P (s.control op).1 := by
  rcases control_cases s op with ⟨info, rfl⟩ | ⟨raw, rfl⟩ | ⟨height, nonce, count, rfl⟩ |
    ⟨height, raw, rfl⟩ | ⟨targetHeight, rfl⟩ | hcore
  · exact h.reset s info
  · exact h.stageBlock s raw hs
  · exact stageBlocksCreate_keeps h.stageBlock height nonce count hs
  · exact h.stageTransaction s height raw hs
  · exact h.applyStaged hs targetHeight
  · exact h.core s _ hs hcore

def run (s : DarksideState) (ops : List ControlOp) : DarksideState :=
  ops.foldl (fun s op => (s.control op).1) s

theorem Kept.run (h : Kept P) (ops : List ControlOp) : P (run .new ops) := by
  have hall : ∀ {s : DarksideState}, P s → P (DarksideState.run s ops) := by
    induction ops with
    | nil => exact fun hs => hs
    | cons op rest ih => exact fun hs => ih (h.control hs op)
  exact hall h.new

/-! ### Heights and tree sizes

The sizes of a block are sums over the blocks below it.  Mining into a block adds to its
own and to those above, by the same counts.
-/

section Tally

omit [Sha256]

/-- The notes of a transaction, or none if it does not parse. -/
def countsOf (tx : Bytes) : TreeSizes :=
  match shieldedCounts tx with
  | .ok counts => counts
  | .error _ => 0

def blockCounts (block : ActiveBlock) : TreeSizes := (block.txs.map countsOf).sum

/-- The block has the coinbase of its height and parses, and its tree sizes are those
below it and its own notes. -/
structure TalliedBlock (height : Nat) (below : TreeSizes) (block : ActiveBlock) : Prop where
  coinbase : ∃ coinbase rest, block.txs = coinbase :: rest ∧
    coinbaseHeightFromRaw coinbase = .ok height
  parses : ∀ tx ∈ block.txs, ∃ counts, shieldedCounts tx = .ok counts
  sizes : block.sizes = below + blockCounts block

/-- Every block of a chain is, from the height and the tree sizes it starts with. -/
def Tallied : Nat → TreeSizes → List ActiveBlock → Prop
  | _, _, [] => True
  | height, below, block :: rest =>
      TalliedBlock height below block ∧ Tallied (height + 1) block.sizes rest

/-- The tree sizes a chain ends with. -/
def topSizes (below : TreeSizes) (active : List ActiveBlock) : TreeSizes :=
  (active.getLast?.map (·.sizes)).getD below

omit [Librustzcash] in
private theorem topSizes_cons (below : TreeSizes) (block : ActiveBlock) (rest : List ActiveBlock) :
    topSizes below (block :: rest) = topSizes block.sizes rest := by
  cases rest with
  | nil => rfl
  | cons next rest =>
      simp only [topSizes, List.getLast?_cons_cons]
      cases hlast : (next :: rest).getLast? with
      | none => simp at hlast
      | some last => rfl

private theorem addCounts_eq_ok {txs : List Bytes} {below sizes : TreeSizes}
    (h : addCounts below txs = .ok sizes) :
    (∀ tx ∈ txs, ∃ counts, shieldedCounts tx = .ok counts) ∧
      sizes = below + (txs.map countsOf).sum := by
  induction txs generalizing below with
  | nil =>
      cases h
      exact ⟨by simp, by simp⟩
  | cons tx rest ih =>
      obtain ⟨counts, hcounts, hrest⟩ := Except.bind_eq_ok.mp h
      obtain ⟨hparses, hsum⟩ := ih hrest
      have hof : countsOf tx = counts := by simp only [countsOf, hcounts]
      refine ⟨?_, ?_⟩
      · intro other hother
        rcases List.mem_cons.mp hother with rfl | hin
        · exact ⟨counts, hcounts⟩
        · exact hparses other hin
      · rw [hsum, List.map_cons, List.sum_cons, hof, add_assoc]

theorem Tallied.take {height : Nat} {below : TreeSizes} {active : List ActiveBlock}
    (h : Tallied height below active) (count : Nat) : Tallied height below (active.take count) := by
  induction active generalizing height below count with
  | nil => simp [Tallied]
  | cons block rest ih =>
      cases count with
      | zero => simp [Tallied]
      | succ count => exact ⟨h.1, ih h.2 count⟩

theorem Tallied.push {height : Nat} {below : TreeSizes} {active : List ActiveBlock}
    {block : ActiveBlock} (h : Tallied height below active)
    (hblock : TalliedBlock (height + active.length) (topSizes below active) block) :
    Tallied height below (active ++ [block]) := by
  induction active generalizing height below with
  | nil => exact ⟨hblock, trivial⟩
  | cons first rest ih =>
      refine ⟨h.1, ih h.2 ?_⟩
      rw [topSizes_cons, List.length_cons] at hblock
      rw [show height + 1 + rest.length = height + (rest.length + 1) by omega]
      exact hblock

/-- More notes below a chain, and as many in every block of it. -/
theorem Tallied.grow {height : Nat} {below : TreeSizes} {active : List ActiveBlock}
    (h : Tallied height below active) (counts : TreeSizes) :
    Tallied height (below + counts)
      (active.map fun block => { block with sizes := block.sizes + counts }) := by
  induction active generalizing height below with
  | nil => trivial
  | cons block rest ih =>
      refine ⟨⟨h.1.coinbase, h.1.parses, ?_⟩, ih h.2⟩
      show block.sizes + counts = below + counts + blockCounts block
      rw [h.1.sizes, add_right_comm]

omit [Librustzcash] in
theorem growFrom_succ (index : Nat) (counts : TreeSizes) (block : ActiveBlock)
    (rest : List ActiveBlock) :
    growFrom (index + 1) counts (block :: rest) = block :: growFrom index counts rest := rfl

/-- Mining into a block in the middle keeps the tally. -/
theorem Tallied.mine {raw : Bytes} {counts : TreeSizes}
    (hcounts : shieldedCounts raw = .ok counts) :
    ∀ {active : List ActiveBlock} {height : Nat} {below : TreeSizes} {index : Nat},
      Tallied height below active → index < active.length →
      Tallied height below (growFrom index counts (active.modify index (mineInto raw))) := by
  have hof : countsOf raw = counts := by simp only [countsOf, hcounts]
  intro active
  induction active with
  | nil =>
      intro height below index _ hindex
      cases hindex
  | cons block rest ih =>
      intro height below index h hindex
      cases index with
      | zero =>
          obtain ⟨coinbase, later, htxs, hheight⟩ := h.1.coinbase
          refine ⟨⟨⟨coinbase, later ++ [raw], ?_, hheight⟩, ?_, ?_⟩, h.2.grow counts⟩
          · show block.txs ++ [raw] = _
            rw [htxs]
            rfl
          · intro tx htx
            rcases List.mem_append.mp htx with hin | hin
            · exact h.1.parses tx hin
            · rw [List.mem_singleton.mp hin]
              exact ⟨counts, hcounts⟩
          · show block.sizes + counts = below + ((block.txs ++ [raw]).map countsOf).sum
            rw [h.1.sizes, List.map_append, List.sum_append, List.map_singleton, List.sum_singleton,
              hof, blockCounts, add_assoc]
      | succ index =>
          rw [List.modify_succ_cons, growFrom_succ]
          exact ⟨h.1, ih h.2 (by simpa using hindex)⟩

theorem Tallied.at {height : Nat} {below : TreeSizes} {active : List ActiveBlock}
    (h : Tallied height below active) {i : Nat} {block : ActiveBlock}
    (hblock : active[i]? = some block) :
    (∃ coinbase rest, block.txs = coinbase :: rest ∧
      coinbaseHeightFromRaw coinbase = .ok (height + i)) ∧
    (∀ tx ∈ block.txs, ∃ counts, shieldedCounts tx = .ok counts) ∧
    block.sizes = below + ((active.take (i + 1)).map blockCounts).sum := by
  induction active generalizing height below i with
  | nil => simp at hblock
  | cons first rest ih =>
      cases i with
      | zero =>
          cases hblock
          refine ⟨h.1.coinbase, h.1.parses, ?_⟩
          rw [h.1.sizes]
          simp
      | succ i =>
          obtain ⟨hcoinbase, hparses, hsizes⟩ := ih h.2 (by simpa using hblock)
          refine ⟨?_, hparses, ?_⟩
          · rw [show height + (i + 1) = height + 1 + i by omega]
            exact hcoinbase
          · rw [hsizes, h.1.sizes, List.take_succ_cons, List.map_cons, List.sum_cons, add_assoc]

end Tally

theorem Tallied.setPrevhash {height : Nat} {below : TreeSizes} {active : List ActiveBlock}
    (h : Tallied height below active) (prevHash : Option Bytes) :
    Tallied height below (setPrevhash prevHash active) := by
  induction active generalizing height below prevHash with
  | nil => trivial
  | cons block rest ih =>
      unfold Lightwalletd.setPrevhash
      cases prevHash with
      | none => exact ⟨h.1, ih h.2 _⟩
      | some hash => exact ⟨⟨h.1.coinbase, h.1.parses, h.1.sizes⟩, ih h.2 _⟩

omit [Librustzcash] [Sha256] in
/-- The sizes below a place the gap check lets through. -/
theorem sizesBelow_eq {s : DarksideState} {offset : Nat} (h : offset ≤ s.active.length) :
    s.sizesBelow offset = topSizes s.startSizes (s.active.take offset) := by
  unfold sizesBelow topSizes
  cases offset with
  | zero => rfl
  | succ offset =>
      have hget : s.active[offset]? = some s.active[offset] := List.getElem?_eq_getElem (by omega)
      have hlast : (s.active.take (offset + 1)).getLast? = s.active[offset]? := by
        rw [List.getLast?_take, if_neg (by omega), Nat.add_sub_cancel, hget]
        rfl
      rw [if_pos (by omega), hlast, Nat.add_sub_cancel, hget]
      rfl

omit [Sha256] in
private theorem talliedBlock_of_added {s : DarksideState} {header coinbase : Bytes}
    {rest : List Bytes}
    {height : Nat} {sizes : TreeSizes} (hheight : coinbaseHeightFromRaw coinbase = .ok height)
    (hlow : s.startHeight ≤ height) (hhigh : height ≤ s.startHeight + s.active.length)
    (hsizes : addCounts (s.sizesBelow (height - s.startHeight)) (coinbase :: rest) = .ok sizes) :
    TalliedBlock (s.startHeight + (s.active.take (height - s.startHeight)).length)
      (topSizes s.startSizes (s.active.take (height - s.startHeight)))
      ⟨header, coinbase :: rest, sizes⟩ := by
  obtain ⟨hparses, hsum⟩ := addCounts_eq_ok hsizes
  have hlength : s.startHeight + (s.active.take (height - s.startHeight)).length = height := by
    rw [List.length_take]
    omega
  rw [sizesBelow_eq (by omega)] at hsum
  refine ⟨⟨coinbase, rest, rfl, ?_⟩, hparses, hsum⟩
  rw [hlength]
  exact hheight

/-- **The tally is kept** by every small step. -/
theorem tallied_kept : Kept fun s => Tallied s.startHeight s.startSizes s.active where
  new := trivial
  core := by
    intro s s' h heq
    simp only [DarksideState.core, Prod.mk.injEq] at heq
    obtain ⟨-, hstart, hsizes, -, hactive, -, -⟩ := heq
    rw [hstart, hsizes, hactive]
    exact h
  reset s info := trivial
  stageBlock := by
    intro s raw h
    rcases stageBlock_cases s raw with ⟨e, heq⟩ | ⟨height, -, -, heq⟩
    · rw [heq]; exact h
    · rw [heq]; exact h
  stageTransaction := by
    intro s height raw h
    rcases stageTransaction_cases s height raw with ⟨e, heq⟩ | ⟨counts, -, heq⟩
    · rw [heq]; exact h
    · rw [heq]; exact h
  unstageBlocks s h := h
  addBlock := by
    intro s raw h
    rcases addBlockActive_cases s raw with ⟨e, heq⟩ |
      ⟨header, coinbase, rest, height, sizes, -, hheight, hlow, hhigh, hsizes, heq⟩
    · rw [heq]; exact h
    · rw [heq]
      exact (h.take _).push (talliedBlock_of_added hheight hlow hhigh hsizes)
  unstageTxs s h := h
  mine := by
    intro s height raw h
    rcases mineTransaction_cases s height raw with ⟨e, heq⟩ | ⟨counts, -, hindex, hcounts, heq⟩
    · rw [heq]; exact h
    · rw [heq]
      exact h.mine hcounts hindex
  link s latestHeight h := h.setPrevhash none

/--
**Heights and tree sizes are consistent.**  After any operations, failed ones among
them: the coinbase of each active block has the height of its place, every
transaction of the chain parses, and the tree sizes of a block are the start sizes
plus the notes of all transactions up to and including it, in 32-bit words.
-/
theorem active_consistent (ops : List ControlOp) {i : Nat} {block : ActiveBlock}
    (hblock : (run .new ops).active[i]? = some block) :
    (∃ coinbase rest, block.txs = coinbase :: rest ∧
      coinbaseHeightFromRaw coinbase = .ok ((run .new ops).startHeight + i)) ∧
    (∀ tx ∈ block.txs, ∃ counts, shieldedCounts tx = .ok counts) ∧
    block.sizes = (run .new ops).startSizes +
      (((run .new ops).active.take (i + 1)).map blockCounts).sum :=
  Tallied.at (Kept.run tallied_kept ops) hblock

end

/-- A block of the mock chain at one of the heights that are a single opcode. -/
def mockBlock (height : Nat) : Bytes :=
  rawHeader (List.replicate 32 0) ++ [1] ++ coinbaseTx (UInt8.ofNat (0x50 + height))

/-- Two blocks from height 1 on, and a transaction mined into the first. -/
def minedChain : List ControlOp :=
  [.reset ⟨1, "76b809bb", "main", (5, 6, 7)⟩, .stageBlock (mockBlock 1), .stageBlock (mockBlock 2),
    .stageTransaction 1 (coinbaseTx 0x57), .applyStaged 2]

theorem minedChain_consistent :
    ∃ block, (run .new minedChain).active[1]? = some block ∧
      (∃ coinbase rest, block.txs = coinbase :: rest ∧ coinbaseHeightFromRaw coinbase = .ok 2) ∧
      block.sizes = (5, 6, 7) + (((run .new minedChain).active.take 2).map blockCounts).sum := by
  obtain ⟨block, hblock⟩ : ∃ block, (run .new minedChain).active[1]? = some block :=
    Option.isSome_iff_exists.mp (by decide +kernel)
  obtain ⟨hcoinbase, -, hsizes⟩ := active_consistent minedChain hblock
  have hstart : (run .new minedChain).startHeight = 1 := by decide +kernel
  have hbase : (run .new minedChain).startSizes = (5, 6, 7) := by decide +kernel
  rw [hstart] at hcoinbase
  rw [hbase] at hsizes
  simp only [Nat.reduceAdd] at hcoinbase hsizes
  exact ⟨block, hblock, hcoinbase, hsizes⟩

end DarksideState

end Lightwalletd
