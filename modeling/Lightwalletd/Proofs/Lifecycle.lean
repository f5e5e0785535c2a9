/-
A staged transaction, mined.

Until it is applied, a transaction that was staged by itself is in the mock mempool; a
successful application empties the mempool and leaves the transaction in the block of
its height.  Mining only adds transactions to blocks and linking leaves them alone, so
that what is in a block can be read off block by block (`mineTransactions_txs`).  The
node then answers with the lowest block that has the txid, which need not be the one the
transaction was staged for.
-/
import Lightwalletd.Proofs.MockNode

namespace Lightwalletd

namespace DarksideState

section

variable [Librustzcash]

/-! ### What mining puts into a block

The transactions are mined in the order in which they were staged, each into the block
of its height.
-/

/-- Each block gets the transactions staged for it, in order. -/
theorem mineTransactions_txs (txs : List (Nat × Bytes)) {s : DarksideState}
    (hok : (mineTransactions s txs).2 = .ok ()) (i : Nat) :
    (mineTransactions s txs).1.active[i]?.map (·.txs)
      = (s.active[i]?).map fun block =>
          block.txs ++ (txs.filter fun tx => tx.1 = s.startHeight + i).map (·.2) := by
  induction txs generalizing s with
  | nil =>
      show s.active[i]?.map (·.txs) = _
      simp
  | cons tx rest ih =>
      obtain ⟨counts, hlow, heq⟩ := mineTransactions_cons hok
      rw [heq] at hok ⊢
      refine (ih hok).trans ?_
      show Option.map _ (growFrom _ counts _)[i]? = _
      rw [growFrom_get, Option.map_map]
      refine Option.map_congr fun block _ => ?_
      show (if i < tx.1 - s.startHeight then block
        else if i = tx.1 - s.startHeight then
          { mineInto tx.2 block with sizes := block.sizes + counts }
        else { block with sizes := block.sizes + counts }).txs ++ _ = _
      by_cases hthis : tx.1 = s.startHeight + i
      · rw [List.filter_cons_of_pos (by simpa using hthis), if_neg (by omega), if_pos (by omega),
          List.map_cons]
        exact List.append_assoc _ _ _
      · rw [List.filter_cons_of_neg (by simpa using hthis)]
        by_cases hbelow : i < tx.1 - s.startHeight
        · rw [if_pos hbelow]
        · rw [if_neg hbelow, if_neg (by omega)]

theorem mineTransactions_range (txs : List (Nat × Bytes)) {s : DarksideState}
    (hok : (mineTransactions s txs).2 = .ok ()) :
    ∀ tx ∈ txs, s.startHeight ≤ tx.1 ∧ tx.1 - s.startHeight < s.active.length := by
  induction txs generalizing s with
  | nil => exact fun _ hin => absurd hin List.not_mem_nil
  | cons tx rest ih =>
      unfold mineTransactions at hok
      rcases mineTransaction_cases s tx.1 tx.2 with ⟨e, heq⟩ | ⟨counts, hlow, hhigh, -, heq⟩
      · rw [heq] at hok
        cases hok
      rw [heq] at hok
      refine List.forall_mem_cons.mpr ⟨⟨hlow, hhigh⟩, fun other hother => ?_⟩
      have hlength : (growFrom (tx.1 - s.startHeight) counts
          (s.active.modify (tx.1 - s.startHeight) (mineInto tx.2))).length = s.active.length := by
        simp [growFrom]
        omega
      obtain ⟨hlow', hhigh'⟩ := ih hok other hother
      exact ⟨hlow', Nat.lt_of_lt_of_eq hhigh' hlength⟩

theorem mineTransactions_mined (txs : List (Nat × Bytes)) {s : DarksideState}
    (hok : (mineTransactions s txs).2 = .ok ()) {tx : Nat × Bytes} (htx : tx ∈ txs) :
    s.startHeight ≤ tx.1 ∧ ∃ block,
      (mineTransactions s txs).1.active[tx.1 - s.startHeight]? = some block ∧
        tx.2 ∈ block.txs := by
  obtain ⟨hlow, hhigh⟩ := mineTransactions_range txs hok tx htx
  have hall := mineTransactions_txs txs hok (tx.1 - s.startHeight)
  rw [List.getElem?_eq_getElem hhigh, Option.map_some] at hall
  obtain ⟨block, hblock, htxs⟩ := Option.map_eq_some_iff.mp hall
  refine ⟨hlow, block, hblock, ?_⟩
  rw [htxs]
  refine List.mem_append_right _ (List.mem_map.mpr ⟨tx, List.mem_filter.mpr ⟨htx, ?_⟩, rfl⟩)
  simp only [decide_eq_true_eq]
  omega

variable [Sha256]

omit [Librustzcash] in
private theorem setPrevhash_txs (prevHash : Option Bytes) (active : List ActiveBlock) :
    (setPrevhash prevHash active).map (·.txs) = active.map (·.txs) := by
  induction active generalizing prevHash with
  | nil => rfl
  | cons block rest ih =>
      rw [setPrevhash.eq_def]
      dsimp only
      rw [List.map_cons, List.map_cons, ih]
      cases prevHash with
      | none => rfl
      | some hash => rfl

omit [Sha256] in
private theorem mineTransactions_frame (s : DarksideState) (txs : List (Nat × Bytes)) :
    (mineTransactions s txs).1 = { s with active := (mineTransactions s txs).1.active } := by
  refine mineTransactions_keeps (P := fun s' => s' = { s with active := s'.active }) rfl txs ?_
  intro s' tx _ hs'
  rcases mineTransaction_cases s' tx.1 tx.2 with ⟨e, heq⟩ | ⟨counts, -, -, -, heq⟩
  · rw [heq]
    exact hs'
  · rw [heq, hs']

omit [Sha256] in
private theorem applyStagedBlocks_frame (s : DarksideState) :
    s.applyStagedBlocks.1.stagedBlocks = [] ∧
    s.applyStagedBlocks.1.stagedTxs = s.stagedTxs ∧
    s.applyStagedBlocks.1.startHeight = s.startHeight := by
  refine applyStagedBlocks_keeps (P := fun s' => s'.stagedBlocks = [] ∧
    s'.stagedTxs = s.stagedTxs ∧ s'.startHeight = s.startHeight) ?_ ⟨rfl, rfl, rfl⟩
  intro s' raw hs'
  rcases addBlockActive_cases s' raw with ⟨e, heq⟩ | ⟨_, _, _, _, _, -, -, -, -, -, heq⟩
  · rw [heq]
    exact hs'
  · rw [heq]
    exact hs'

/-- A success leaves nothing staged, and every transaction that was in its block. -/
theorem applyStaged_mined {s : DarksideState} {targetHeight : Int}
    (h : (s.applyStaged targetHeight).2 = .ok ()) :
    (s.applyStaged targetHeight).1.stagedBlocks = [] ∧
    (s.applyStaged targetHeight).1.stagedTxs = [] ∧
    ∀ tx ∈ s.stagedTxs, s.startHeight ≤ tx.1 ∧ ∃ block,
      (s.applyStaged targetHeight).1.active[tx.1 - s.startHeight]? = some block ∧
        tx.2 ∈ block.txs := by
  obtain ⟨merged, mined, -, hmerge, hmine, happly⟩ := applyStaged_run h
  obtain ⟨hblocks, htxs, hstart⟩ := applyStagedBlocks_frame s
  rw [hmerge] at hblocks htxs hstart
  dsimp only at hblocks htxs hstart
  unfold mineStagedTransactions at hmine
  rw [htxs] at hmine
  have hframe := mineTransactions_frame { merged with stagedTxs := [] } s.stagedTxs
  rw [hmine] at hframe
  rw [happly]
  refine ⟨?_, ?_, fun tx htx => ?_⟩
  · exact (congrArg stagedBlocks hframe).trans hblocks
  · exact congrArg stagedTxs hframe
  · obtain ⟨hlow, block, hblock, hraw⟩ := mineTransactions_mined s.stagedTxs (by rw [hmine]) htx
    rw [hmine] at hblock
    have hlinked := congrArg (·[tx.1 - s.startHeight]?) (setPrevhash_txs none mined.active)
    dsimp only at hblock hlinked
    dsimp only at hlow
    rw [hstart] at hblock hlow
    rw [List.getElem?_map, List.getElem?_map, hblock] at hlinked
    obtain ⟨linked, hget, hsame⟩ := Option.map_eq_some_iff.mp hlinked
    exact ⟨hlow, linked, hget, by rw [hsame]; exact hraw⟩

/-! ### Where it is found

The lookup takes the blocks from the lowest up, and a txid may be in more than one of
them.
-/

omit [Sha256] [Librustzcash] in
private theorem minedTxs_append (startHeight : Nat) (front back : List ActiveBlock) (offset : Nat) :
    minedTxs startHeight offset (front ++ back)
      = minedTxs startHeight offset front ++ minedTxs startHeight (offset + front.length) back := by
  induction front generalizing offset with
  | nil => rfl
  | cons block front ih =>
      rw [List.cons_append, minedTxs, minedTxs, ih, List.append_assoc, List.length_cons,
        Nat.add_right_comm, Nat.add_assoc offset]

variable [LawfulLibrustzcash]

omit [Sha256] in
/-- The lookup answers with the lowest block that has the txid. -/
theorem Known.mined {s : DarksideState} (h : Known s) {txid : String} {place : Nat}
    {block : ActiveBlock} (hblock : s.active[place]? = some block)
    (hhas : ∃ raw ∈ block.txs, txidDisplay raw = .ok txid)
    (hlowest : ∀ lower < place, ∀ other, s.active[lower]? = some other →
      ∀ raw ∈ other.txs, txidDisplay raw ≠ .ok txid) :
    ∃ raw ∈ block.txs, txidDisplay raw = .ok txid ∧
      s.rawTransaction txid = .ok ⟨hexEncode raw, asI64 (s.startHeight + place)⟩ := by
  obtain ⟨hlt, rfl⟩ := List.getElem?_eq_some_iff.mp hblock
  have hsplit : s.active = s.active.take place ++ s.active[place] :: s.active.drop (place + 1) := by
    rw [List.cons_getElem_drop_succ, List.take_append_drop]
  have hlength : (s.active.take place).length = place := by
    rw [List.length_take]
    omega
  obtain ⟨later, hlater⟩ : ∃ later, s.knownTxs = minedTxs s.startHeight 0 (s.active.take place) ++
      (servedAt (asI64 (s.startHeight + place)) s.active[place].txs ++ later) := by
    refine ⟨minedTxs s.startHeight (place + 1) (s.active.drop (place + 1)) ++ s.pendingTxs, ?_⟩
    have hchain : minedTxs s.startHeight 0 s.active
        = minedTxs s.startHeight 0 (s.active.take place) ++
          minedTxs s.startHeight place (s.active[place] :: s.active.drop (place + 1)) := by
      conv_lhs => rw [hsplit, minedTxs_append, hlength, Nat.zero_add]
    rw [knownTxs, hchain, minedTxs, List.append_assoc, List.append_assoc]
  have hparses := h.txids
  rw [hlater] at hparses
  have hfront : search txid (minedTxs s.startHeight 0 (s.active.take place)) = .ok none := by
    rcases search_cases txid (fun entry hin => hparses entry (List.mem_append_left _ hin)) with
      ⟨front, found, back, heq, -, hfound, -⟩ | ⟨hnone, -⟩
    · have hin : found ∈ minedTxs s.startHeight 0 (s.active.take place) := by
        rw [heq]
        exact List.mem_append_right _ List.mem_cons_self
      obtain ⟨lower, other, hother, hraw, -⟩ := mem_minedTxs.mp hin
      obtain ⟨hlow, -⟩ := List.getElem?_eq_some_iff.mp hother
      rw [hlength] at hlow
      rw [List.getElem?_take_of_lt hlow] at hother
      exact absurd hfound (hlowest lower hlow other hother _ hraw)
    · exact hnone
  rcases search_cases txid (fun entry hin =>
      hparses entry (List.mem_append_right _ (List.mem_append_left later hin))) with
    ⟨front, found, back, heq, -, hfound, hrun⟩ | ⟨-, hnone⟩
  · have hin : found ∈ servedAt (asI64 (s.startHeight + place)) s.active[place].txs := by
      rw [heq]
      exact List.mem_append_right _ List.mem_cons_self
    obtain ⟨raw, hraw, rfl⟩ := List.mem_map.mp hin
    refine ⟨raw, hraw, hfound, ?_⟩
    rw [rawTransaction_eq h.staged, hlater, search_append, search_append, hfront, hrun,
      orElse_none, orElse_some, orElse_some]
  · obtain ⟨raw, hraw, htxid⟩ := hhas
    exact absurd htxid (hnone (raw, _) (List.mem_map.mpr ⟨raw, hraw, rfl⟩))

/--
**A staged transaction is mined.**  After any operations and a successful application:
the mock mempool is empty, and every transaction that was staged by itself is in the
block of its height and is found, in the lowest block that has its txid, and so at its
own height unless a lower block has the txid too.
-/
theorem staged_then_mined (ops : List ControlOp) (targetHeight : Int) (s : DarksideState)
    (happlied : (run .new ops).applyStaged targetHeight = (s, .ok ())) :
    s.rawMempool = .ok [] ∧
    ∀ tx ∈ (run .new ops).stagedTxs, s.startHeight ≤ tx.1 ∧ ∃ own txid place block raw,
      s.active[tx.1 - s.startHeight]? = some own ∧ tx.2 ∈ own.txs ∧
      txidDisplay tx.2 = .ok txid ∧ s.active[place]? = some block ∧ raw ∈ block.txs ∧
      txidDisplay raw = .ok txid ∧
      s.rawTransaction txid = .ok ⟨hexEncode raw, asI64 (s.startHeight + place)⟩ ∧
      place ≤ tx.1 - s.startHeight ∧ ∀ lower < place, ∀ other, s.active[lower]? = some other →
        ∀ raw ∈ other.txs, txidDisplay raw ≠ .ok txid := by
  have hs : s = ((run .new ops).applyStaged targetHeight).1 := by rw [happlied]
  have hknown := known_run ops
  have hstart : s.startHeight = (run .new ops).startHeight := by
    rw [hs]
    exact applyStaged_startHeight _ _
  have hok : ((run .new ops).applyStaged targetHeight).2 = .ok () := by rw [happlied]
  obtain ⟨hblocks, htxs, hmined⟩ := applyStaged_mined hok
  have hafter : Known s := by
    rw [hs]
    exact ⟨staged_kept.applyStaged hknown.staged targetHeight,
      tallied_kept.applyStaged hknown.tallied targetHeight⟩
  rw [← hs] at hblocks htxs hmined
  refine ⟨?_, fun tx htx => ?_⟩
  · unfold rawMempool
    rw [hblocks, htxs]
    rfl
  obtain ⟨hlow, own, hown, hin⟩ := hmined tx htx
  rw [← hstart] at hown hlow
  obtain ⟨txid, htxid⟩ := txid_of_counts (hknown.staged.txs tx htx)
  classical
  have hhas : ∃ place, ∃ block : ActiveBlock, s.active[place]? = some block ∧
      ∃ raw ∈ block.txs, txidDisplay raw = .ok txid := ⟨_, own, hown, tx.2, hin, htxid⟩
  obtain ⟨block, hblock, hraw⟩ := Nat.find_spec hhas
  have hlowest : ∀ lower < Nat.find hhas, ∀ other, s.active[lower]? = some other →
      ∀ raw ∈ other.txs, txidDisplay raw ≠ .ok txid :=
    fun lower hlower other hother raw hmem heq =>
      Nat.find_min hhas hlower ⟨other, hother, raw, hmem, heq⟩
  obtain ⟨raw, hmem, hsame, hrun⟩ := hafter.mined hblock hraw hlowest
  exact ⟨hlow, own, txid, Nat.find hhas, block, raw, hown, hin, htxid, hblock, hmem, hsame, hrun,
    Nat.find_min' hhas ⟨own, hown, tx.2, hin, htxid⟩, hlowest⟩

end

/-- The transaction staged for the first of two blocks. -/
theorem minedChain_mines : ∃ s own, (run .new (minedChain.take 4)).applyStaged 2 = (s, .ok ()) ∧
    s.rawMempool = .ok [] ∧ s.active[0]? = some own ∧ coinbaseTx 0x57 ∈ own.txs := by
  have hresult : ((run .new (minedChain.take 4)).applyStaged 2).2 = .ok () := by decide +kernel
  have hstart : ((run .new (minedChain.take 4)).applyStaged 2).1.startHeight = 1 := by
    decide +kernel
  have hstaged : (1, coinbaseTx 0x57) ∈ (run .new (minedChain.take 4)).stagedTxs := by
    decide +kernel
  revert hresult hstart
  rcases happlied : (run .new (minedChain.take 4)).applyStaged 2 with ⟨s, result⟩
  intro hresult hstart
  dsimp only at hresult hstart
  rw [hresult] at happlied
  obtain ⟨hempty, hmined⟩ := staged_then_mined (minedChain.take 4) 2 s happlied
  obtain ⟨-, own, -, -, -, -, hown, hin, -⟩ := hmined _ hstaged
  rw [hstart] at hown
  exact ⟨s, own, by rw [hresult], hempty, hown, hin⟩

end DarksideState

end Lightwalletd
