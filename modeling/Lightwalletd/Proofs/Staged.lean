/-
What lies beside the mock chain: tree states, subtree roots, outputs and transactions of
addresses, and the transactions wallets have sent.

To their users the tree states are a map from heights, and the rest are lists that grow
until they are cleared: that is `Shelf`, and what an operation does to it is one line
each.  The code keeps the tree states in a list, from which an addition first drops what
is in its place.  Every run refines the shelf (`shelved`), so that what a wallet reads
can be said in terms of the shelf.
-/
import Lightwalletd.Darkside.Node
import Lightwalletd.Lib.Keyed
import Lightwalletd.Proofs.Darkside

namespace Lightwalletd

/-- What lies beside the chain, as its users think of it. -/
structure Shelf where
  ready : Bool
  trees : Nat → Option TreeState
  roots : Int → Option StagedSubtreeRoots
  utxos : List GetAddressUtxosReply
  history : List (String × Bytes × Nat)
  incoming : List Bytes

namespace Shelf

def empty (ready : Bool) : Shelf := ⟨ready, fun _ => none, fun _ => none, [], [], []⟩

/-- A tree state is only taken in after a reset. -/
def putTree (shelf : Shelf) (treeState : TreeState) : Shelf :=
  if shelf.ready then
    { shelf with trees := Function.update shelf.trees treeState.height (some treeState) }
  else shelf

/-- Tree states go by their height, or by their hash in either byte order. -/
def dropTrees (shelf : Shelf) (height : Nat) (wireHash : Bytes) : Shelf :=
  if height > 0 then { shelf with trees := Function.update shelf.trees height none }
  else { shelf with trees := fun height => (shelf.trees height).filter fun treeState =>
    treeState.hash ≠ hexEncode wireHash ∧ treeState.hash ≠ wireToDisplayHex wireHash }

variable [Librustzcash]

/-- A transaction is only received if it has a txid. -/
def receive (shelf : Shelf) (raw : Bytes) : Shelf :=
  match txidDisplay raw with
  | .ok _ => { shelf with incoming := shelf.incoming ++ [raw] }
  | .error _ => shelf

/-- What an operation does to the shelf. -/
def after (shelf : Shelf) : DarksideState.ControlOp → Shelf
  | .reset _ => empty true
  | .addTreestate treeState => shelf.putTree treeState
  | .removeTreestate height wireHash => shelf.dropTrees height wireHash
  | .clearTreestates => { shelf with trees := fun _ => none }
  | .setSubtreeRoots protocol roots =>
      { shelf with roots := Function.update shelf.roots protocol (some roots) }
  | .addUtxo reply => { shelf with utxos := shelf.utxos ++ [reply] }
  | .clearUtxos => { shelf with utxos := [] }
  | .addAddrTx address raw height =>
      { shelf with history := shelf.history ++ [(address, raw, height)] }
  | .clearAddrTxs => { shelf with history := [] }
  | .pushIncoming raw => shelf.receive raw
  | .clearIncoming => { shelf with incoming := [] }
  | .stageBlock _ | .stageBlocksCreate .. | .stageTransaction .. | .applyStaged _ => shelf

def run (ops : List DarksideState.ControlOp) : Shelf := ops.foldl after (empty false)

/-! ### Where it comes from -/

private theorem receive_beside (shelf : Shelf) (raw : Bytes) :
    (shelf.receive raw).utxos = shelf.utxos ∧ (shelf.receive raw).history = shelf.history := by
  unfold receive
  split
  · exact ⟨rfl, rfl⟩
  · exact ⟨rfl, rfl⟩

omit [Librustzcash] in
private theorem putTree_beside (shelf : Shelf) (treeState : TreeState) :
    (shelf.putTree treeState).utxos = shelf.utxos ∧
      (shelf.putTree treeState).history = shelf.history := by
  unfold putTree
  split
  · exact ⟨rfl, rfl⟩
  · exact ⟨rfl, rfl⟩

omit [Librustzcash] in
private theorem dropTrees_beside (shelf : Shelf) (height : Nat) (wireHash : Bytes) :
    (shelf.dropTrees height wireHash).utxos = shelf.utxos ∧
      (shelf.dropTrees height wireHash).history = shelf.history := by
  unfold dropTrees
  split
  · exact ⟨rfl, rfl⟩
  · exact ⟨rfl, rfl⟩

/-- What an operation makes of a list of the shelf: the same, nothing, or one more. -/
def Grown {α : Type} (puts : α → DarksideState.ControlOp) (clear op : DarksideState.ControlOp)
    (before later : List α) : Prop :=
  later = before ∨ (later = [] ∧ (op = clear ∨ ∃ info, op = .reset info)) ∨
    ∃ a, op = puts a ∧ later = before ++ [a]

theorem after_grown (shelf : Shelf) (op : DarksideState.ControlOp) :
    Grown .addUtxo .clearUtxos op shelf.utxos (shelf.after op).utxos ∧
      Grown (fun entry => .addAddrTx entry.1 entry.2.1 entry.2.2) .clearAddrTxs op shelf.history
        (shelf.after op).history := by
  cases op with
  | reset info =>
      exact ⟨Or.inr (Or.inl ⟨rfl, Or.inr ⟨info, rfl⟩⟩), Or.inr (Or.inl ⟨rfl, Or.inr ⟨info, rfl⟩⟩)⟩
  | addUtxo reply => exact ⟨Or.inr (Or.inr ⟨reply, rfl, rfl⟩), Or.inl rfl⟩
  | clearUtxos => exact ⟨Or.inr (Or.inl ⟨rfl, Or.inl rfl⟩), Or.inl rfl⟩
  | addAddrTx address raw height =>
      exact ⟨Or.inl rfl, Or.inr (Or.inr ⟨(address, raw, height), rfl, rfl⟩)⟩
  | clearAddrTxs => exact ⟨Or.inl rfl, Or.inr (Or.inl ⟨rfl, Or.inl rfl⟩)⟩
  | pushIncoming raw => exact (receive_beside shelf raw).imp Or.inl Or.inl
  | addTreestate treeState => exact (putTree_beside shelf treeState).imp Or.inl Or.inl
  | removeTreestate height wireHash =>
      exact (dropTrees_beside shelf height wireHash).imp Or.inl Or.inl
  | _ => exact ⟨Or.inl rfl, Or.inl rfl⟩

/-- What is in a part of the shelf was put there by an operation. -/
theorem mem_run {α : Type} (part : Shelf → List α) (puts : α → DarksideState.ControlOp)
    (clear : DarksideState.ControlOp) (hempty : part (empty false) = [])
    (hafter : ∀ shelf op, Grown puts clear op (part shelf) (part (shelf.after op)))
    (ops : List DarksideState.ControlOp) : ∀ a ∈ part (run ops), puts a ∈ ops := by
  have hall : ∀ shelf, ∀ a ∈ part (ops.foldl after shelf), a ∈ part shelf ∨ puts a ∈ ops := by
    induction ops with
    | nil => exact fun shelf a ha => Or.inl ha
    | cons op rest ih =>
        intro shelf a ha
        rcases ih (shelf.after op) a ha with hbefore | hlater
        · rcases hafter shelf op with hsame | ⟨hnil, -⟩ | ⟨b, rfl, hput⟩
          · exact Or.inl (hsame ▸ hbefore)
          · rw [hnil] at hbefore
            cases hbefore
          · rw [hput] at hbefore
            rcases List.mem_append.mp hbefore with hin | hlast
            · exact Or.inl hin
            · obtain rfl := List.mem_singleton.mp hlast
              exact Or.inr List.mem_cons_self
        · exact Or.inr (List.mem_cons_of_mem _ hlater)
  intro a ha
  refine (hall _ a ha).resolve_left fun hin => ?_
  rw [hempty] at hin
  exact absurd hin List.not_mem_nil

theorem mem_utxos {ops : List DarksideState.ControlOp} {reply : GetAddressUtxosReply}
    (h : reply ∈ (run ops).utxos) : .addUtxo reply ∈ ops :=
  mem_run utxos .addUtxo .clearUtxos rfl (fun shelf op => (after_grown shelf op).1) ops reply h

end Shelf

namespace DarksideState

/-! ### The refinement

Most operations touch one part of the shelf or none.  Those on the chain leave `beside`
as it is, also when they stop half-way.
-/

/-- What the operations on the chain leave alone. -/
def beside (s : DarksideState) : Bool × List GetAddressUtxosReply × List (String × Bytes × Nat) ×
    List TreeState × List Bytes × Table Int StagedSubtreeRoots :=
  (s.wasReset, s.utxos, s.addrTxs, s.treestates, s.incomingTxs, s.subtreeRoots)

section

variable [Librustzcash]

private theorem addBlockActive_beside (s : DarksideState) (raw : Bytes) :
    (s.addBlockActive raw).1.beside = s.beside := by
  rcases addBlockActive_cases s raw with ⟨e, heq⟩ | ⟨_, _, _, _, _, -, -, -, -, -, heq⟩
  · rw [heq]
  · rw [heq]
    rfl

private theorem mineTransaction_beside (s : DarksideState) (height : Nat) (raw : Bytes) :
    (s.mineTransaction height raw).1.beside = s.beside := by
  rcases mineTransaction_cases s height raw with ⟨e, heq⟩ | ⟨counts, -, -, -, heq⟩
  · rw [heq]
  · rw [heq]
    rfl

theorem stageBlock_beside (s : DarksideState) (raw : Bytes) :
    (s.stageBlock raw).1.beside = s.beside := by
  rcases stageBlock_cases s raw with ⟨e, heq⟩ | ⟨height, -, -, heq⟩
  · rw [heq]
  · rw [heq]
    rfl

private theorem stageTransaction_beside (s : DarksideState) (height : Nat) (raw : Bytes) :
    (s.stageTransaction height raw).1.beside = s.beside := by
  rcases stageTransaction_cases s height raw with ⟨e, heq⟩ | ⟨counts, -, heq⟩
  · rw [heq]
  · rw [heq]
    rfl

variable [Sha256]

private theorem stageBlocksCreate_beside (s : DarksideState) (height nonce count : Int) :
    (s.stageBlocksCreate height nonce count).1.beside = s.beside :=
  stageBlocksCreate_keeps (P := fun s' => s'.beside = s.beside)
    (fun s' raw hs' => (stageBlock_beside s' raw).trans hs') height nonce count rfl

private theorem applyStaged_beside (s : DarksideState) (targetHeight : Int) :
    (s.applyStaged targetHeight).1.beside = s.beside := by
  have hkept : KeptApplying fun s' => s'.beside = s.beside :=
    ⟨fun _ hs' => hs', fun s' raw hs' => (addBlockActive_beside s' raw).trans hs',
      fun _ hs' => hs', fun s' height raw hs' => (mineTransaction_beside s' height raw).trans hs'⟩
  have hmerged : s.applyStagedBlocks.1.beside = s.beside := hkept.applyStagedBlocks rfl
  unfold applyStaged
  split
  · rfl
  split
  · rfl
  split
  · next hfail =>
      rw [hfail] at hmerged
      exact hmerged
  · next merged hok =>
      rw [hok] at hmerged
      have hmined := hkept.mineStagedTransactions hmerged
      split
      · next hfail =>
          rw [hfail] at hmined
          exact hmined
      · next hdone =>
          rw [hdone] at hmined
          exact hmined

omit [Sha256] in
/-- The state has what is on the shelf. -/
structure Shelved (s : DarksideState) (shelf : Shelf) : Prop where
  ready : s.wasReset = shelf.ready
  trees : Keyed.Lists TreeState.height s.treestates shelf.trees
  roots : ∀ protocol, s.subtreeRoots.get protocol = shelf.roots protocol
  utxos : s.utxos = shelf.utxos
  history : s.addrTxs = shelf.history
  incoming : s.incomingTxs = shelf.incoming

variable {s : DarksideState} {shelf : Shelf}

omit [Librustzcash] [Sha256] in
/-- Only what lies beside the chain matters. -/
theorem Shelved.of_beside {s' : DarksideState} (h : Shelved s shelf)
    (hbeside : s'.beside = s.beside) : Shelved s' shelf := by
  simp only [beside, Prod.mk.injEq] at hbeside
  obtain ⟨hready, hutxos, haddrTxs, htrees, hincoming, hroots⟩ := hbeside
  exact ⟨by rw [hready, h.ready], by rw [htrees]; exact h.trees, by rw [hroots]; exact h.roots,
    by rw [hutxos, h.utxos], by rw [haddrTxs, h.history], by rw [hincoming, h.incoming]⟩

omit [Librustzcash] [Sha256] in
theorem shelved_new : Shelved new (Shelf.empty false) :=
  ⟨rfl, Keyed.Lists.nil, fun _ => rfl, rfl, rfl, rfl⟩

/-- **One operation**, whether it fails or not, does to the state what it does to the
shelf. -/
theorem Shelved.control (h : Shelved s shelf) (op : ControlOp) :
    Shelved (s.control op).1 (shelf.after op) := by
  cases op with
  | reset info => exact ⟨rfl, Keyed.Lists.nil, fun _ => rfl, rfl, rfl, rfl⟩
  | stageBlock raw => exact h.of_beside (stageBlock_beside s raw)
  | stageBlocksCreate height nonce count =>
      exact h.of_beside (stageBlocksCreate_beside s height nonce count)
  | stageTransaction height raw => exact h.of_beside (stageTransaction_beside s height raw)
  | applyStaged targetHeight => exact h.of_beside (applyStaged_beside s targetHeight)
  | pushIncoming raw =>
      show Shelved (s.pushIncoming raw).1 (shelf.receive raw)
      unfold pushIncoming Shelf.receive
      rcases txidDisplay raw with e | txid
      · exact h
      · exact { h with incoming := congrArg (· ++ [raw]) h.incoming }
  | clearIncoming => exact { h with incoming := rfl }
  | addUtxo reply => exact { h with utxos := congrArg (· ++ [reply]) h.utxos }
  | clearUtxos => exact { h with utxos := rfl }
  | addAddrTx address raw height =>
      exact { h with history := congrArg (· ++ [(address, raw, height)]) h.history }
  | clearAddrTxs => exact { h with history := rfl }
  | addTreestate treeState =>
      show Shelved (s.addTreestate treeState).1 (shelf.putTree treeState)
      unfold addTreestate Shelf.putTree
      have hready := h.ready
      rcases hshelf : shelf.ready with _ | _
      · rw [hshelf] at hready
        rw [hready]
        exact h
      · rw [hshelf] at hready
        rw [hready]
        exact { h with ready := rfl, trees := h.trees.put treeState }
  | removeTreestate height wireHash =>
      show Shelved (s.removeTreestate height wireHash) (shelf.dropTrees height wireHash)
      unfold removeTreestate Shelf.dropTrees
      by_cases hheight : height > 0
      · rw [if_pos hheight, if_pos hheight]
        exact { h with trees := h.trees.erase height }
      · rw [if_neg hheight, if_neg hheight]
        exact { h with trees := h.trees.filter _ }
  | clearTreestates => exact { h with trees := Keyed.Lists.nil }
  | setSubtreeRoots protocol roots =>
      refine { h with roots := fun other => ?_ }
      show (s.subtreeRoots.insert protocol roots).get other
        = Function.update shelf.roots protocol (some roots) other
      rw [Table.get_insert, h.roots other]
      by_cases hsame : other = protocol
      · rw [if_pos hsame, hsame, Function.update_self]
      · rw [if_neg hsame, Function.update_of_ne hsame]

/-- **Every run refines the shelf.** -/
theorem shelved_run (ops : List ControlOp) : Shelved (run .new ops) (Shelf.run ops) := by
  have hall : ∀ {s : DarksideState} {shelf : Shelf}, Shelved s shelf →
      Shelved (run s ops) (ops.foldl Shelf.after shelf) := by
    induction ops with
    | nil => exact fun h => h
    | cons op rest ih => exact fun h => ih (h.control op)
  exact hall shelved_new

end

end DarksideState

end Lightwalletd
