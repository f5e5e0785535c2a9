/-
What a failed `applyStaged` leaves of the presented chain.

Applying works on the chain in place: blocks are put in one by one, then transactions
are mined, and only at the end is the chain linked and the tip set.  A success leaves
a linked chain with the tip on it.  A failure is harmless when it comes before the
first change, and `Applicable` says when that is so, in heights alone: what is staged
is refused at its first item, or all of it fits.  Under it an operation that fails
leaves the chain as it was, and the presented chain is intact throughout a run.
-/
import Lightwalletd.Proofs.Darkside
import Lightwalletd.Proofs.Split

namespace Lightwalletd

/-! ### Linking

Linking writes into each header the hash of the one below, from the bottom up.
-/

section

variable [Sha256]

theorem sha256d_length (data : Bytes) : (sha256d data).length = 32 := Sha256.digest_length _

omit [Sha256] in
theorem writePrevHash_length {header hash : Bytes} (hheader : 36 ≤ header.length)
    (hhash : hash.length = 32) : (writePrevHash header hash).length = header.length := by
  simp only [writePrevHash, List.length_append, List.length_take, List.length_drop]
  omega

omit [Sha256] in
theorem link_writePrevHash {header hash : Bytes} (hheader : 36 ≤ header.length)
    (hhash : hash.length = 32) : ((writePrevHash header hash).drop 4).take 32 = hash := by
  have htake : (header.take 4).length = 4 := by
    rw [List.length_take]
    omega
  rw [writePrevHash, List.append_assoc, List.drop_left' htake, List.take_left' hhash]

private theorem setPrevhash_headers {active : List ActiveBlock}
    (hlong : ∀ block ∈ active, 36 ≤ block.header.length) (prevHash : Option Bytes)
    (hprev : ∀ hash ∈ prevHash, hash.length = 32) :
    ∀ block ∈ setPrevhash prevHash active,
      ∃ old ∈ active, block.header.length = old.header.length := by
  induction active generalizing prevHash with
  | nil => intro block hblock; cases hblock
  | cons first rest ih =>
      intro block hblock
      have hfirst := hlong first List.mem_cons_self
      have hrest := fun block hblock => hlong block (List.mem_cons_of_mem _ hblock)
      unfold setPrevhash at hblock
      rcases List.mem_cons.mp hblock with heq | hin
      · refine ⟨first, List.mem_cons_self, ?_⟩
        rw [heq]
        cases prevHash with
        | none => rfl
        | some hash => exact writePrevHash_length hfirst (hprev hash rfl)
      · obtain ⟨old, hold, hlength⟩ := ih hrest _ (by
          intro hash hhash
          cases hhash
          exact sha256d_length _) block hin
        exact ⟨old, List.mem_cons_of_mem _ hold, hlength⟩

/-- Every block names the one below it. -/
def LinkedBlocks (active : List ActiveBlock) : Prop :=
  ∀ i below block, active[i]? = some below → active[i + 1]? = some block →
    (block.header.drop 4).take 32 = sha256d below.header

private theorem setPrevhash_linked {active : List ActiveBlock}
    (hlong : ∀ block ∈ active, 36 ≤ block.header.length) (prevHash : Option Bytes) :
    LinkedBlocks (setPrevhash prevHash active) := by
  induction active generalizing prevHash with
  | nil => intro i below block hbelow; simp [setPrevhash] at hbelow
  | cons first rest ih =>
      have hrest := fun block hblock => hlong block (List.mem_cons_of_mem _ hblock)
      intro i below block hbelow hblock
      unfold setPrevhash at hbelow hblock
      cases i with
      | succ i => exact ih hrest _ i below block hbelow hblock
      | zero =>
          cases rest with
          | nil => simp [setPrevhash] at hblock
          | cons next later =>
              unfold setPrevhash at hblock
              simp only [List.getElem?_cons_zero, Option.some.injEq] at hbelow
              simp only [List.getElem?_cons_succ, List.getElem?_cons_zero, Option.some.injEq]
                at hblock
              rw [← hblock, ← hbelow]
              exact link_writePrevHash (hrest next List.mem_cons_self) (sha256d_length _)

end

namespace DarksideState

section

variable [Librustzcash]

/-! ### What is staged parses -/

/-- What staging has checked, and the headers splitting leaves. -/
structure Staged (s : DarksideState) : Prop where
  blocks : ∀ raw ∈ s.stagedBlocks, ∃ height, rawBlockHeight raw = .ok height ∧
    s.startHeight ≤ height
  txs : ∀ tx ∈ s.stagedTxs, ∃ counts, shieldedCounts tx.2 = .ok counts
  headers : ∀ block ∈ s.active, headerPrefixLen ≤ block.header.length

theorem Staged.long {s : DarksideState} (h : Staged s) :
    ∀ block ∈ s.active, 36 ≤ block.header.length :=
  fun block hblock => le_trans (by decide) (h.headers block hblock)

theorem splitBlock_header {raw header : Bytes} {txs : List Bytes}
    (h : splitBlock raw = .ok (header, txs)) : headerPrefixLen ≤ header.length := by
  unfold splitBlock at h
  simp only [Except.bind_eq_ok, Except.ensure_eq_ok, Except.pure_eq_ok, Prod.mk.injEq] at h
  obtain ⟨stop, hstop, -, -, -, -, -, -, rfl, rfl⟩ := h
  obtain ⟨hlow, hhigh⟩ := headerEnd_bounds hstop
  rw [List.length_take]
  omega

omit [Librustzcash] in
theorem mem_growFrom {index : Nat} {counts : TreeSizes} {active : List ActiveBlock}
    {block : ActiveBlock} (h : block ∈ growFrom index counts active) :
    ∃ old ∈ active, block.header = old.header ∧ block.txs = old.txs := by
  rcases List.mem_append.mp h with hin | hin
  · exact ⟨block, List.mem_of_mem_take hin, rfl, rfl⟩
  · obtain ⟨old, hold, rfl⟩ := List.mem_map.mp hin
    exact ⟨old, List.mem_of_mem_drop hold, rfl, rfl⟩

omit [Librustzcash] in
theorem mem_modify {index : Nat} {f : ActiveBlock → ActiveBlock} {active : List ActiveBlock}
    {block : ActiveBlock} (h : block ∈ active.modify index f) :
    ∃ old ∈ active, block = old ∨ block = f old := by
  obtain ⟨i, hi⟩ := List.mem_iff_getElem?.mp h
  rw [List.getElem?_modify] at hi
  obtain ⟨old, hold, heq⟩ := Option.map_eq_some_iff.mp hi
  refine ⟨old, List.mem_of_getElem? hold, ?_⟩
  split at heq
  · exact Or.inr heq.symm
  · exact Or.inl heq.symm

theorem staged_kept [Sha256] : Kept Staged where
  new := ⟨by simp [new], by simp [new], by simp [new]⟩
  core := by
    intro s s' h heq
    simp only [DarksideState.core, Prod.mk.injEq] at heq
    obtain ⟨-, hstart, -, -, hactive, hblocks, htxs⟩ := heq
    refine ⟨?_, by rw [htxs]; exact h.txs, by rw [hactive]; exact h.headers⟩
    rw [hblocks, hstart]
    exact h.blocks
  reset s info := ⟨by simp [reset, new], by simp [reset, new], by simp [reset, new]⟩
  stageBlock := by
    intro s raw h
    rcases stageBlock_cases s raw with ⟨e, heq⟩ | ⟨height, hheight, hlow, heq⟩
    · rw [heq]; exact h
    · rw [heq]
      refine ⟨?_, h.txs, h.headers⟩
      intro other hother
      rcases List.mem_append.mp hother with hin | hin
      · exact h.blocks other hin
      · rw [List.mem_singleton.mp hin]
        exact ⟨height, hheight, hlow⟩
  stageTransaction := by
    intro s height raw h
    rcases stageTransaction_cases s height raw with ⟨e, heq⟩ | ⟨counts, hcounts, heq⟩
    · rw [heq]; exact h
    · rw [heq]
      refine ⟨h.blocks, ?_, h.headers⟩
      intro other hother
      rcases List.mem_append.mp hother with hin | hin
      · exact h.txs other hin
      · rw [List.mem_singleton.mp hin]
        exact ⟨counts, hcounts⟩
  unstageBlocks s h := ⟨by simp, h.txs, h.headers⟩
  addBlock := by
    intro s raw h
    rcases addBlockActive_cases s raw with ⟨e, heq⟩ |
      ⟨header, coinbase, rest, height, sizes, hsplit, -, -, -, -, heq⟩
    · rw [heq]; exact h
    · rw [heq]
      refine ⟨h.blocks, h.txs, ?_⟩
      intro block hblock
      rcases List.mem_append.mp hblock with hin | hin
      · exact h.headers block (List.mem_of_mem_take hin)
      · rw [List.mem_singleton.mp hin]
        exact splitBlock_header hsplit
  unstageTxs s h := ⟨h.blocks, by simp, h.headers⟩
  mine := by
    intro s height raw h
    rcases mineTransaction_cases s height raw with ⟨e, heq⟩ | ⟨counts, -, -, -, heq⟩
    · rw [heq]; exact h
    · rw [heq]
      refine ⟨h.blocks, h.txs, ?_⟩
      intro block hblock
      obtain ⟨mined, hmined, hheader, -⟩ := mem_growFrom hblock
      obtain ⟨old, hold, hcases⟩ := mem_modify hmined
      have hlong := h.headers old hold
      rw [hheader]
      rcases hcases with rfl | rfl
      · exact hlong
      · show headerPrefixLen ≤ (old.header.modify 68 (· + 1)).length
        rw [List.length_modify]
        exact hlong
  link := by
    intro s latestHeight h
    refine ⟨h.blocks, h.txs, ?_⟩
    intro block hblock
    obtain ⟨old, hold, hlength⟩ := setPrevhash_headers h.long none (by simp) block hblock
    rw [hlength]
    exact h.headers old hold

/-! ### When everything staged fits

Whether an application goes through can be said before it starts: each block has to
connect to those before it, and each transaction needs its block.
-/

/-- The height a staged block was found to have. -/
def heightOf (raw : Bytes) : Nat :=
  match rawBlockHeight raw with
  | .ok height => height
  | .error _ => 0

def stagedHeights (s : DarksideState) : List Nat := s.stagedBlocks.map heightOf

/-- Each block connects to the chain the ones before it leave, of `length` blocks from
`start` on. -/
def Connects (start : Nat) : Nat → List Nat → Prop
  | _, [] => True
  | length, height :: rest =>
      height ≤ start + length ∧ Connects start (height - start + 1) rest

instance : ∀ (start length : Nat) (heights : List Nat), Decidable (Connects start length heights)
  | _, _, [] => inferInstanceAs (Decidable True)
  | start, _, height :: rest =>
      have := instDecidableConnects start (height - start + 1) rest
      inferInstanceAs (Decidable (_ ∧ _))

def lengthAfter (start : Nat) : Nat → List Nat → Nat
  | length, [] => length
  | _, height :: rest => lengthAfter start (height - start + 1) rest

/-- Everything staged fits: each block connects, and each transaction has its block. -/
def AllFits (s : DarksideState) : Prop :=
  Connects s.startHeight s.active.length s.stagedHeights ∧
  0 < lengthAfter s.startHeight s.active.length s.stagedHeights ∧
  ∀ tx ∈ s.stagedTxs, s.startHeight ≤ tx.1 ∧
    tx.1 < s.startHeight + lengthAfter s.startHeight s.active.length s.stagedHeights

/-- What is staged is refused at its first item: a block that leaves a gap, or without
blocks an empty chain or a transaction that has no block in it. -/
def FirstRefused (s : DarksideState) : Prop :=
  (∃ raw ∈ s.stagedBlocks.head?, s.startHeight + s.active.length < heightOf raw) ∨
  s.stagedBlocks = [] ∧ (s.active = [] ∨ ∃ tx ∈ s.stagedTxs.head?,
    tx.1 < s.startHeight ∨ s.startHeight + s.active.length ≤ tx.1)

/-- Applying is turned away at the door, refused at the first item, or goes through. -/
def Applicable (s : DarksideState) (targetHeight : Int) : Prop :=
  s.wasReset = false ∨ targetHeight < s.startHeight ∨ s.FirstRefused ∨ s.AllFits

theorem rawBlockHeight_eq_ok {raw : Bytes} {height : Nat} (h : rawBlockHeight raw = .ok height) :
    ∃ header coinbase rest, splitBlock raw = .ok (header, coinbase :: rest) ∧
      coinbaseHeightFromRaw coinbase = .ok height := by
  unfold rawBlockHeight at h
  obtain ⟨⟨header, txs⟩, hsplit, hheight⟩ := Except.bind_eq_ok.mp h
  cases txs with
  | nil => cases hheight
  | cons coinbase rest =>
      exact ⟨header, coinbase, rest, Except.mapError_eq_ok.mp hsplit,
        Except.mapError_eq_ok.mp hheight⟩

theorem heightOf_eq {raw : Bytes} {height : Nat} (h : rawBlockHeight raw = .ok height) :
    heightOf raw = height := by
  simp only [heightOf, h]

private theorem addCounts_ok (txs : List Bytes) (below : TreeSizes)
    (h : ∀ tx ∈ txs, ∃ counts, shieldedCounts tx = .ok counts) :
    ∃ sizes, addCounts below txs = .ok sizes := by
  induction txs generalizing below with
  | nil => exact ⟨below, rfl⟩
  | cons tx rest ih =>
      obtain ⟨counts, hcounts⟩ := h tx List.mem_cons_self
      obtain ⟨sizes, hsizes⟩ := ih (below + counts) fun other hin =>
        h other (List.mem_cons_of_mem _ hin)
      exact ⟨sizes, Except.bind_eq_ok.mpr ⟨counts, hcounts, hsizes⟩⟩

/-- A transaction that reads in front of anything counts its notes. -/
private theorem shieldedCounts_of_reads {tx : Bytes} {parsed : Transaction}
    (h : ∀ other, Librustzcash.readTransaction (tx ++ other) = .ok (parsed, other)) :
    ∃ counts, shieldedCounts tx = .ok counts := by
  have halone := h []
  rw [List.append_nil] at halone
  unfold shieldedCounts
  rw [halone]
  exact ⟨_, rfl⟩

private theorem addBlockActive_fits [LawfulLibrustzcash] {s : DarksideState} {raw : Bytes}
    {height : Nat}
    (h : rawBlockHeight raw = .ok height) (hlow : s.startHeight ≤ height)
    (hhigh : height ≤ s.startHeight + s.active.length) :
    ∃ block, s.addBlockActive raw = ({ s with
      active := s.active.take (height - s.startHeight) ++ [block] }, .ok ()) := by
  obtain ⟨header, coinbase, rest, hsplit, hheight⟩ := rawBlockHeight_eq_ok h
  have hreads := (splitBlock_raw hsplit).2.2.2
  obtain ⟨sizes, hsizes⟩ := addCounts_ok (coinbase :: rest)
    (s.sizesBelow (height - s.startHeight)) (by
      intro tx htx
      obtain ⟨parsed, hparsed⟩ := hreads tx htx
      exact shieldedCounts_of_reads hparsed)
  refine ⟨⟨header, coinbase :: rest, sizes⟩, ?_⟩
  simp only [addBlockActive, hsplit, hheight, hsizes]
  rw [if_neg (by omega), if_neg (by omega)]

private theorem addBlockActive_gap {s : DarksideState} {raw : Bytes} {height : Nat}
    (h : rawBlockHeight raw = .ok height) (hgap : s.startHeight + s.active.length < height) :
    ∃ e, s.addBlockActive raw = (s, .error e) := by
  obtain ⟨header, coinbase, rest, hsplit, hheight⟩ := rawBlockHeight_eq_ok h
  simp only [addBlockActive, hsplit, hheight]
  rw [if_pos hgap]
  exact ⟨_, rfl⟩

private theorem addBlocks_fit [LawfulLibrustzcash] (raws : List Bytes) {s : DarksideState}
    (hraws : ∀ raw ∈ raws, ∃ height, rawBlockHeight raw = .ok height ∧ s.startHeight ≤ height)
    (hconnects : Connects s.startHeight s.active.length (raws.map heightOf)) :
    ∃ active, addBlocks s raws = ({ s with active := active }, .ok ()) ∧
      active.length = lengthAfter s.startHeight s.active.length (raws.map heightOf) := by
  induction raws generalizing s with
  | nil => exact ⟨s.active, rfl, rfl⟩
  | cons raw rest ih =>
      obtain ⟨height, hheight, hlow⟩ := hraws raw List.mem_cons_self
      obtain ⟨hhigh, hrest⟩ := hconnects
      rw [heightOf_eq hheight] at hhigh hrest
      obtain ⟨block, hadd⟩ := addBlockActive_fits hheight hlow hhigh
      have hlength : (s.active.take (height - s.startHeight) ++ [block]).length
          = height - s.startHeight + 1 := by
        rw [List.length_append, List.length_take, List.length_singleton]
        omega
      obtain ⟨active, hactive, hafter⟩ := ih (s := { s with
          active := s.active.take (height - s.startHeight) ++ [block] })
        (fun raw hin => hraws raw (List.mem_cons_of_mem _ hin)) (by
          show Connects s.startHeight (s.active.take (height - s.startHeight) ++ [block]).length _
          rw [hlength]
          exact hrest)
      refine ⟨active, ?_, ?_⟩
      · unfold addBlocks
        rw [hadd]
        exact hactive
      · rw [hafter, List.map_cons, heightOf_eq hheight, lengthAfter]
        show lengthAfter s.startHeight (s.active.take (height - s.startHeight) ++ [block]).length _
          = _
        rw [hlength]

private theorem mineTransactions_fit (txs : List (Nat × Bytes)) {s : DarksideState}
    (hparses : ∀ tx ∈ txs, ∃ counts, shieldedCounts tx.2 = .ok counts)
    (hfits : ∀ tx ∈ txs, s.startHeight ≤ tx.1 ∧ tx.1 < s.startHeight + s.active.length) :
    ∃ active, mineTransactions s txs = ({ s with active := active }, .ok ()) ∧
      active.length = s.active.length := by
  induction txs generalizing s with
  | nil => exact ⟨s.active, rfl, rfl⟩
  | cons tx rest ih =>
      obtain ⟨counts, hcounts⟩ := hparses tx List.mem_cons_self
      obtain ⟨hlow, hhigh⟩ := hfits tx List.mem_cons_self
      let mined := growFrom (tx.1 - s.startHeight) counts
        (s.active.modify (tx.1 - s.startHeight) (mineInto tx.2))
      have hmine : s.mineTransaction tx.1 tx.2 = ({ s with active := mined }, .ok ()) := by
        simp only [mineTransaction, hcounts]
        rw [if_neg (by omega), if_neg (by omega)]
      have hlength : mined.length = s.active.length := by
        simp only [mined, growFrom, List.length_append, List.length_take, List.length_map,
          List.length_drop, List.length_modify]
        omega
      obtain ⟨active, hactive, hafter⟩ := ih (s := { s with active := mined })
        (fun other hin => hparses other (List.mem_cons_of_mem _ hin)) (by
          intro other hin
          have := hfits other (List.mem_cons_of_mem _ hin)
          show s.startHeight ≤ other.1 ∧ other.1 < s.startHeight + mined.length
          rw [hlength]
          exact this)
      refine ⟨active, ?_, hafter.trans hlength⟩
      unfold mineTransactions
      rw [hmine]
      exact hactive

/-! ### How applying ends

It goes through, or it is refused at its first item and leaves the chain alone, or it
stops in the middle.  The last of these is what the condition on runs rules out.
-/

theorem startHeight_kept (start : Nat) : KeptApplying fun s => s.startHeight = start where
  unstageBlocks s h := h
  addBlock := by
    intro s raw h
    rcases addBlockActive_cases s raw with ⟨e, heq⟩ | ⟨_, _, _, _, _, -, -, -, -, -, heq⟩
    · rw [heq]; exact h
    · rw [heq]; exact h
  unstageTxs s h := h
  mine := by
    intro s height raw h
    rcases mineTransaction_cases s height raw with ⟨e, heq⟩ | ⟨counts, -, -, -, heq⟩
    · rw [heq]; exact h
    · rw [heq]; exact h

private theorem nonempty_kept : KeptApplying fun s => s.active ≠ [] where
  unstageBlocks s h := h
  addBlock := by
    intro s raw h
    rcases addBlockActive_cases s raw with ⟨e, heq⟩ | ⟨_, _, _, _, _, -, -, -, -, -, heq⟩
    · rw [heq]; exact h
    · rw [heq]; simp
  unstageTxs s h := h
  mine := by
    intro s height raw h
    rcases mineTransaction_cases s height raw with ⟨e, heq⟩ | ⟨counts, -, -, -, heq⟩
    · rw [heq]; exact h
    · rw [heq]
      have hpos := List.length_pos_of_ne_nil h
      refine List.ne_nil_of_length_pos ?_
      simp only [growFrom, List.length_append, List.length_take, List.length_map,
        List.length_drop, List.length_modify]
      omega

private theorem applyStagedBlocks_nonempty {s merged : DarksideState}
    (h : s.applyStagedBlocks = (merged, .ok ())) : merged.active ≠ [] := by
  unfold applyStagedBlocks at h
  split at h
  · cases h
  · split at h
    · cases h
    · next hne =>
        cases h
        simpa using hne

variable [Sha256]

/-- Past the door, applying is merging, mining and presenting. -/
theorem applyStaged_eq {s : DarksideState} {targetHeight : Int} (hreset : s.wasReset = true)
    (htarget : ¬ targetHeight < s.startHeight) :
    s.applyStaged targetHeight = match s.applyStagedBlocks with
      | (s, .error e) => (s, .error e)
      | (s, .ok ()) =>
          match s.mineStagedTransactions with
          | (s, .error e) => (s, .error e)
          | (s, .ok ()) => (s.present (min targetHeight
              (s.startHeight + (setPrevhash none s.active).length - 1)), .ok ()) := by
  simp only [applyStaged, hreset, htarget, Bool.not_true, Bool.false_eq_true, if_false]
  rfl

theorem applyStaged_startHeight (s : DarksideState) (targetHeight : Int) :
    (s.applyStaged targetHeight).1.startHeight = s.startHeight := by
  by_cases hreset : s.wasReset = true
  swap
  · simp [applyStaged, hreset]
  by_cases htarget : targetHeight < s.startHeight
  · simp [applyStaged, hreset, htarget]
  rw [applyStaged_eq hreset htarget]
  have hstart := (startHeight_kept s.startHeight).applyStagedBlocks (rfl : s.startHeight = _)
  rcases hmerge : s.applyStagedBlocks with ⟨merged, _ | _⟩
  · rw [hmerge] at hstart
    exact hstart
  rw [hmerge] at hstart
  have hstart' := (startHeight_kept s.startHeight).mineStagedTransactions hstart
  dsimp only at hstart' ⊢
  rcases hmine : merged.mineStagedTransactions with ⟨mined, _ | _⟩
  · rw [hmine] at hstart'
    exact hstart'
  · rw [hmine] at hstart'
    exact hstart'

/-- What a success has gone through: all that is staged has been merged, then mined, and the
chain has been linked. -/
theorem applyStaged_run {s : DarksideState} {targetHeight : Int}
    (h : (s.applyStaged targetHeight).2 = .ok ()) :
    ∃ merged mined, (s.startHeight : Int) ≤ targetHeight ∧
      s.applyStagedBlocks = (merged, .ok ()) ∧ merged.mineStagedTransactions = (mined, .ok ()) ∧
      (s.applyStaged targetHeight).1 = mined.present (min targetHeight
        (mined.startHeight + (setPrevhash none mined.active).length - 1)) := by
  by_cases hreset : s.wasReset = true
  swap
  · simp [applyStaged, hreset] at h
  by_cases htarget : targetHeight < s.startHeight
  · simp [applyStaged, hreset, htarget] at h
  rw [applyStaged_eq hreset htarget] at h ⊢
  rcases hmerge : s.applyStagedBlocks with ⟨merged, _ | _⟩
  · rw [hmerge] at h
    cases h
  rw [hmerge] at h
  dsimp only at h ⊢
  rcases hmine : merged.mineStagedTransactions with ⟨mined, _ | _⟩
  · rw [hmine] at h
    cases h
  · exact ⟨merged, mined, by omega, rfl, hmine, rfl⟩

/-- A success links a chain that has a block and presents it up to the target. -/
theorem applyStaged_ok {P : DarksideState → Prop} (hP : KeptApplying P) {s : DarksideState}
    {targetHeight : Int} (hs : P s) (h : (s.applyStaged targetHeight).2 = .ok ()) :
    ∃ m : DarksideState, P m ∧ m.startHeight = s.startHeight ∧ m.active ≠ [] ∧
      (s.startHeight : Int) ≤ targetHeight ∧
      (s.applyStaged targetHeight).1 =
        m.present (min targetHeight (m.startHeight + (setPrevhash none m.active).length - 1)) := by
  obtain ⟨merged, mined, htarget, hmerge, hmine, happly⟩ := applyStaged_run h
  have hblocks := hP.applyStagedBlocks hs
  have hstart := (startHeight_kept s.startHeight).applyStagedBlocks (rfl : s.startHeight = _)
  rw [hmerge] at hblocks hstart
  have hmined := hP.mineStagedTransactions hblocks
  have hstart' := (startHeight_kept s.startHeight).mineStagedTransactions hstart
  have hnonempty := nonempty_kept.mineStagedTransactions (applyStagedBlocks_nonempty hmerge)
  rw [hmine] at hmined hstart' hnonempty
  exact ⟨mined, hmined, hstart', hnonempty, htarget, happly⟩

theorem applyStaged_refused {s : DarksideState} {targetHeight : Int} (hs : Staged s)
    (hreset : s.wasReset = true) (htarget : ¬ targetHeight < s.startHeight) (h : FirstRefused s) :
    (s.applyStaged targetHeight).1.active = s.active ∧
      (s.applyStaged targetHeight).1.latestHeight = s.latestHeight := by
  have happly := applyStaged_eq hreset htarget
  rcases h with ⟨raw, hraw, hgap⟩ | ⟨hnone, hcases⟩
  · obtain ⟨rest, hblocks⟩ := List.head?_eq_some_iff.mp hraw
    obtain ⟨height, hheight, -⟩ := hs.blocks raw (by rw [hblocks]; exact List.mem_cons_self)
    rw [heightOf_eq hheight] at hgap
    obtain ⟨e', hadd⟩ := addBlockActive_gap (s := { s with stagedBlocks := [] }) hheight hgap
    have hmerge : s.applyStagedBlocks = ({ s with stagedBlocks := [] }, .error e') := by
      simp only [applyStagedBlocks, hblocks, addBlocks, hadd]
    rw [happly, hmerge]
    exact ⟨rfl, rfl⟩
  · by_cases hempty : s.active = []
    · have hmerge : s.applyStagedBlocks = ({ s with stagedBlocks := [] },
          .error (.invalid "no active blocks after applying staged blocks")) := by
        simp only [applyStagedBlocks, hnone, addBlocks, hempty, List.isEmpty_nil, if_true]
      rw [happly, hmerge]
      exact ⟨rfl, rfl⟩
    · obtain ⟨tx, htx, hout⟩ := hcases.resolve_left hempty
      obtain ⟨rest, htxs⟩ := List.head?_eq_some_iff.mp htx
      have hmerge : s.applyStagedBlocks = ({ s with stagedBlocks := [] }, .ok ()) := by
        simp only [applyStagedBlocks, hnone, addBlocks, List.isEmpty_iff, hempty, if_false]
      have hmine : ∃ e', (({ s with stagedBlocks := [] } : DarksideState).mineStagedTransactions)
          = ({ s with stagedBlocks := [], stagedTxs := [] }, .error e') := by
        simp only [mineStagedTransactions, htxs, mineTransactions, mineTransaction]
        by_cases hlow : tx.1 < s.startHeight
        · simp only [hlow, if_true]
          exact ⟨_, rfl⟩
        · have hhigh : tx.1 - s.startHeight ≥ s.active.length := by
            have := hout.resolve_left hlow
            omega
          simp only [hlow, if_false, hhigh, if_true]
          exact ⟨_, rfl⟩
      obtain ⟨e', hmine⟩ := hmine
      rw [happly, hmerge]
      simp only [hmine]
      exact ⟨trivial, trivial⟩

theorem applyStaged_fits [LawfulLibrustzcash] {s : DarksideState} {targetHeight : Int}
    (hs : Staged s) (hreset : s.wasReset = true) (htarget : ¬ targetHeight < s.startHeight)
    (h : AllFits s) : (s.applyStaged targetHeight).2 = .ok () := by
  obtain ⟨hconnects, hpos, htxs⟩ := h
  obtain ⟨active, hadd, hlength⟩ := addBlocks_fit s.stagedBlocks
    (s := { s with stagedBlocks := [] }) hs.blocks hconnects
  change active.length = lengthAfter s.startHeight s.active.length s.stagedHeights at hlength
  have hne : active ≠ [] := List.ne_nil_of_length_pos (by omega)
  have hmerge : s.applyStagedBlocks
      = ({ s with stagedBlocks := [], active := active }, .ok ()) := by
    simp only [applyStagedBlocks, hadd, List.isEmpty_iff, hne, if_false]
  obtain ⟨mined, hmined, -⟩ := mineTransactions_fit s.stagedTxs
    (s := { s with stagedBlocks := [], active := active, stagedTxs := [] }) hs.txs (by
      intro tx htx
      show s.startHeight ≤ tx.1 ∧ tx.1 < s.startHeight + active.length
      rw [hlength]
      exact htxs tx htx)
  rw [applyStaged_eq hreset htarget, hmerge]
  simp only [mineStagedTransactions, hmined]

/-- A failure that comes before the first change leaves the chain alone. -/
theorem applyStaged_error [LawfulLibrustzcash] {s : DarksideState} {targetHeight : Int}
    {e : DarksideError} (hs : Staged s) (hok : Applicable s targetHeight)
    (h : (s.applyStaged targetHeight).2 = .error e) :
    (s.applyStaged targetHeight).1.active = s.active ∧
      (s.applyStaged targetHeight).1.latestHeight = s.latestHeight := by
  by_cases hreset : s.wasReset = false
  · simp [applyStaged, hreset]
  by_cases htarget : targetHeight < s.startHeight
  · simp [applyStaged, hreset, htarget]
  rw [Bool.not_eq_false] at hreset
  rcases hok with hc | hc | hfirst | hfits
  · rw [hc] at hreset
    cases hreset
  · exact absurd hc htarget
  · exact applyStaged_refused hs hreset htarget hfirst
  · rw [applyStaged_fits hs hreset htarget hfits] at h
    cases h

/-! ### Over whole runs -/

/-- The presented chain is intact: its tip is on it, and every block names the one
below. -/
structure Intact (s : DarksideState) : Prop where
  tip : s.latestHeight = -1 ∨ ((s.startHeight : Int) ≤ s.latestHeight ∧
    s.latestHeight ≤ s.startHeight + s.active.length - 1)
  linked : LinkedBlocks s.active

/-- The condition on an operation: one that applies is applicable. -/
def StepOk (s : DarksideState) : ControlOp → Prop
  | .applyStaged targetHeight => Applicable s targetHeight
  | _ => True

/-- The chain as the node sees it. -/
def chain (s : DarksideState) : Nat × Int × List ActiveBlock :=
  (s.startHeight, s.latestHeight, s.active)

omit [Librustzcash] in
theorem Intact.of_chain {s s' : DarksideState} (h : Intact s)
    (heq : s'.chain = s.chain) : Intact s' := by
  simp only [chain, Prod.mk.injEq] at heq
  obtain ⟨hstart, hlatest, hactive⟩ := heq
  exact ⟨by rw [hstart, hlatest, hactive]; exact h.tip, by rw [hactive]; exact h.linked⟩

omit [Sha256] in
theorem stageBlock_chain (s : DarksideState) (raw : Bytes) :
    (s.stageBlock raw).1.chain = s.chain := by
  rcases stageBlock_cases s raw with ⟨e, heq⟩ | ⟨height, -, -, heq⟩
  · rw [heq]
  · rw [heq]
    rfl

/-- A success leaves the chain intact, whatever it found. -/
theorem intact_of_applied {s : DarksideState} {targetHeight : Int} (hs : Staged s)
    (h : (s.applyStaged targetHeight).2 = .ok ()) : Intact (s.applyStaged targetHeight).1 := by
  obtain ⟨m, hm, hstart, hne, htarget, heq⟩ := applyStaged_ok staged_kept.toKeptApplying hs h
  have hlinked := setPrevhash_linked hm.long none
  have hpos : 0 < (setPrevhash none m.active).length := by
    cases hactive : m.active with
    | nil => exact absurd hactive hne
    | cons block rest => simp [setPrevhash]
  rw [heq]
  refine ⟨Or.inr ?_, hlinked⟩
  show (m.startHeight : Int) ≤ min targetHeight _ ∧ min targetHeight _ ≤ _
  rw [← hstart] at htarget
  exact ⟨by omega, min_le_right _ _⟩

omit [Librustzcash] [Sha256] in
private theorem chain_of_core {s s' : DarksideState} (heq : s'.core = s.core) :
    s'.chain = s.chain := by
  simp only [core, Prod.mk.injEq] at heq
  obtain ⟨-, hstart, -, hlatest, hactive, -, -⟩ := heq
  simp only [chain, hstart, hlatest, hactive]

theorem intact_step [LawfulLibrustzcash] {s : DarksideState} {op : ControlOp} (hs : Staged s)
    (h : Intact s) (hok : StepOk s op) : Intact (s.control op).1 := by
  rcases control_cases s op with ⟨info, rfl⟩ | ⟨raw, rfl⟩ | ⟨height, nonce, count, rfl⟩ |
    ⟨height, raw, rfl⟩ | ⟨targetHeight, rfl⟩ | hcore
  · exact ⟨Or.inl rfl, by intro i below block hbelow; simp [control, reset, new] at hbelow⟩
  · exact h.of_chain (stageBlock_chain s raw)
  · refine h.of_chain ?_
    exact stageBlocksCreate_keeps (P := fun s' => s'.chain = s.chain)
      (fun s' raw hs' => (stageBlock_chain s' raw).trans hs') height nonce count rfl
  · refine h.of_chain ?_
    show (s.stageTransaction height raw).1.chain = _
    rcases stageTransaction_cases s height raw with ⟨e, heq⟩ | ⟨counts, -, heq⟩
    · rw [heq]
    · rw [heq]
      rfl
  · show Intact (s.applyStaged targetHeight).1
    rcases hresult : (s.applyStaged targetHeight).2 with e | _
    · obtain ⟨hactive, hlatest⟩ := applyStaged_error hs hok hresult
      have hstart : (s.applyStaged targetHeight).1.startHeight = s.startHeight :=
        applyStaged_startHeight s targetHeight
      exact h.of_chain (by simp only [chain, hactive, hlatest, hstart])
    · exact intact_of_applied hs hresult
  · exact h.of_chain (chain_of_core hcore)

theorem intact_run [LawfulLibrustzcash] {ops : List ControlOp}
    (hok : Run.AllSteps (fun s op => (s.control op).1) StepOk .new ops) :
    Staged (run .new ops) ∧ Intact (run .new ops) := by
  refine Run.foldl_invariant (fun s => Staged s ∧ Intact s) ?_ hok ⟨staged_kept.new, ?_⟩
  · intro s op hs hstep
    exact ⟨staged_kept.control hs.1 op, intact_step hs.1 hs.2 hstep⟩
  · exact ⟨Or.inl rfl, by intro i below block hbelow; simp [new] at hbelow⟩

/--
**When failures leave the presented chain intact.**  In every run in which each
application of what is staged is turned away at the door, refused at its first item
or finds that everything fits: after every operation the tip is on the chain and
every block names the one below it, and an application that failed left the chain and
the tip as they were.
-/
theorem presented_intact [LawfulLibrustzcash] (ops : List ControlOp)
    (hok : Run.AllSteps (fun s op => (s.control op).1) StepOk .new ops) :
    Intact (run .new ops) ∧
    ∀ before targetHeight after, ops = before ++ .applyStaged targetHeight :: after →
      ∀ e, ((run .new before).applyStaged targetHeight).2 = .error e →
        ((run .new before).applyStaged targetHeight).1.active = (run .new before).active ∧
        ((run .new before).applyStaged targetHeight).1.latestHeight
          = (run .new before).latestHeight := by
  refine ⟨(intact_run hok).2, ?_⟩
  intro before targetHeight after hsplit e herror
  rw [hsplit] at hok
  obtain ⟨hbefore, hstep, -⟩ := hok.append
  exact applyStaged_error (intact_run hbefore).1 hstep herror

end

/-- Three blocks, then one that replaces the first together with one that leaves a gap. -/
def gapReorg : List ControlOp :=
  [.reset ⟨1, "76b809bb", "main", (0, 0, 0)⟩, .stageBlock (mockBlock 1), .stageBlock (mockBlock 2),
    .stageBlock (mockBlock 3), .applyStaged 3, .stageBlock (mockBlock 1),
    .stageBlock (mockBlock 5), .applyStaged 3]

/-- The failed application has cut the chain below the tip it still presents. -/
theorem gapReorg_cuts :
    ¬ ∀ ops : List ControlOp, Intact (run .new ops) ∧
      ∀ targetHeight e, ((run .new ops).applyStaged targetHeight).2 = .error e →
        ((run .new ops).applyStaged targetHeight).1.active = (run .new ops).active ∧
        ((run .new ops).applyStaged targetHeight).1.latestHeight = (run .new ops).latestHeight := by
  intro h
  have htip := (h gapReorg).1.tip
  have hstate : (run .new gapReorg).latestHeight = 3 ∧ (run .new gapReorg).startHeight = 1 ∧
      (run .new gapReorg).active.length = 1 := by decide +kernel
  rw [hstate.1, hstate.2.1, hstate.2.2] at htip
  omega

/-- Without the block that leaves a gap. -/
theorem minedChain_intact :
    Intact (run .new minedChain) ∧ (run .new minedChain).latestHeight = 2 := by
  refine ⟨(presented_intact minedChain ?_).1, by decide +kernel⟩
  refine ⟨trivial, trivial, trivial, trivial, ?_, trivial⟩
  refine Or.inr (Or.inr (Or.inr ⟨by decide +kernel, by decide +kernel, ?_⟩))
  decide +kernel

end DarksideState

end Lightwalletd
