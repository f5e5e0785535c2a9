/-
The tree states wallets read from the mock node.

An id stands for a height or for a hash, and which of them is told by its length alone:
no height has as many digits as a hash has, and what is printed of a height is parsed
back to it.  So a wallet that asks by height gets what the control plane has put there
last, and one that asks by hash gets a tree state that has it.
-/
import Lightwalletd.Proofs.MetaKeys
import Lightwalletd.Proofs.Staged

namespace Lightwalletd

/-! ### Ids

An id is read as a height or as a hash by its length.  A printed height is shorter than
a hash of 32 bytes.
-/

theorem utf8ByteSize_ofList {chars : List Char} (h : ∀ c ∈ chars, c.utf8Size = 1) :
    (String.ofList chars).utf8ByteSize = chars.length := by
  induction chars with
  | nil => rfl
  | cons c rest ih =>
      rw [String.ofList_cons, String.utf8ByteSize_append, String.utf8ByteSize_singleton,
        h c List.mem_cons_self, ih fun other hin => h other (List.mem_cons_of_mem _ hin),
        List.length_cons, Nat.add_comm]

private theorem utf8Size_digit {d : Nat} (h : d < 10) : (Char.ofNat (48 + d)).utf8Size = 1 := by
  interval_cases d <;> decide

theorem digitChar_eq {d : Nat} (h : d < 10) : Nat.digitChar d = Char.ofNat (48 + d) := by
  interval_cases d <;> decide

theorem mem_toDigits {n : Nat} {c : Char} (h : c ∈ Nat.toDigits 10 n) :
    ∃ d < 10, c = Char.ofNat (48 + d) := by
  induction n using Nat.strongRecOn with
  | ind n ih =>
      rw [Nat.toDigits_eq_if (by decide)] at h
      have hlast : Nat.digitChar (n % 10) = Char.ofNat (48 + n % 10) :=
        digitChar_eq (Nat.mod_lt _ (by decide))
      split at h
      · next hlt =>
          obtain rfl := List.mem_singleton.mp h
          exact ⟨n, hlt, digitChar_eq hlt⟩
      · next hle =>
          rcases List.mem_append.mp h with hfront | hin
          · exact ih (n / 10) (Nat.div_lt_self (by omega) (by decide)) hfront
          · obtain rfl := List.mem_singleton.mp hin
            exact ⟨n % 10, Nat.mod_lt _ (by decide), hlast⟩

private theorem parseDigits_toDigits {n : Nat} (h : n ≤ u64Max) :
    parseDigits 0 (Nat.toDigits 10 n) = some n := by
  induction n using Nat.strongRecOn with
  | ind n ih =>
      have hmod : n % 10 < 10 := Nat.mod_lt _ (by decide)
      rw [Nat.toDigits_eq_if (by decide)]
      split
      · next hlt =>
          have hone := parseDigits_append 0 n [] hlt
          rw [digitChar_eq hlt]
          simpa [parseDigits, h] using hone
      · next hle =>
          rw [digitChar_eq hmod, parseDigits_append _ _ _ hmod,
            ih (n / 10) (Nat.div_lt_self (by omega) (by decide)) (by omega)]
          have hdiv : n / 10 * 10 + n % 10 = n := by omega
          simp [hdiv, h]

theorem parseU64_toString {n : Nat} (h : n ≤ u64Max) : parseU64 (toString n).toList = some n := by
  have hchars : (toString n).toList = Nat.toDigits 10 n := by
    rw [show toString n = String.ofList (Nat.toDigits 10 n) from Nat.repr_eq_ofList_toDigits,
      String.toList_ofList]
  rw [hchars, ← parseDigits_toDigits h]
  have hdigits : ∀ c ∈ Nat.toDigits 10 n, c ≠ '+' := by
    intro c hc
    obtain ⟨d, hd, rfl⟩ := mem_toDigits hc
    interval_cases d <;> decide
  have hpos : 0 < (Nat.toDigits 10 n).length := Nat.length_toDigits_pos
  rcases hcons : Nat.toDigits 10 n with _ | ⟨c, rest⟩
  · rw [hcons] at hpos
    exact absurd hpos (Nat.lt_irrefl 0)
  · have hplus := hdigits c (by rw [hcons]; exact List.mem_cons_self)
    unfold parseU64
    split
    · next heq => cases heq
    · next heq => exact absurd (List.cons.inj heq).1 hplus
    · rfl

private theorem utf8ByteSize_toString {n : Nat} (h : n ≤ u64Max) :
    (toString n).utf8ByteSize < 64 := by
  rw [show toString n = String.ofList (Nat.toDigits 10 n) from Nat.repr_eq_ofList_toDigits,
    utf8ByteSize_ofList]
  · have hlen := (Nat.length_toDigits_le_iff (b := 10) (n := n) (k := 20) (by decide)
      (by decide)).mpr (Nat.lt_of_le_of_lt h (by decide))
    omega
  · intro c hc
    obtain ⟨d, hd, rfl⟩ := mem_toDigits hc
    exact utf8Size_digit hd

private theorem utf8ByteSize_wireToDisplayHex (wireHash : Bytes) :
    (wireToDisplayHex wireHash).utf8ByteSize = 2 * wireHash.length := by
  rw [wireToDisplayHex, hexEncode, utf8ByteSize_ofList (utf8Size_hexPair _), length_hexPairs,
    List.length_reverse]

/-! ### What a wallet reads

A height finds what was put there last.  A hash finds the first tree state in the list
that has it, since one hash may have been staged at several heights.
-/

/-- A tree state that has a tree. -/
def TreeState.Holds (treeState : TreeState) : Prop :=
  ¬(treeState.saplingTree = "" ∧ treeState.orchardTree = "" ∧ treeState.ironwoodTree = "")

namespace DarksideState

def nodeTreeState (treeState : TreeState) : GetTreeState where
  hash := treeState.hash
  height := treeState.height
  time := treeState.time
  sapling := treeState.saplingTree
  orchard := treeState.orchardTree
  ironwood := treeState.ironwoodTree

/-- What is staged comes back under the network's name. -/
theorem nodeTreeStateToProto_eq_ok {network : String} {staged treeState : TreeState} :
    nodeTreeStateToProto network (nodeTreeState staged) = .ok treeState ↔
      staged.Holds ∧ treeState = { staged with network := network } := by
  unfold nodeTreeStateToProto
  by_cases hempty : (nodeTreeState staged).sapling = "" ∧ (nodeTreeState staged).orchard = "" ∧
      (nodeTreeState staged).ironwood = ""
  · rw [if_pos hempty]
    constructor
    · intro h
      cases h
    · intro h
      exact absurd hempty h.1
  · rw [if_neg hempty]
    constructor
    · intro h
      exact ⟨hempty, (Except.ok.inj h).symm⟩
    · rintro ⟨-, rfl⟩
      rfl

section

variable [Librustzcash] [Sha256] {s : DarksideState} {shelf : Shelf}

omit [Librustzcash] [Sha256] in
theorem Shelved.treestate_height (h : Shelved s shelf) {height : Nat} (hheight : height ≤ u64Max)
    {answer : GetTreeState} : s.treestateNode (toString height) = .ok answer ↔
      ∃ staged, shelf.trees height = some staged ∧ answer = nodeTreeState staged := by
  unfold treestateNode treestate
  rw [Except.mapError_eq_ok, if_pos (utf8ByteSize_toString hheight), parseU64_toString hheight]
  dsimp only
  rw [Except.ok_bind, h.trees.find?_key height]
  rcases shelf.trees height with _ | staged
  · constructor
    · intro hanswer
      cases hanswer
    · rintro ⟨staged, hnone, -⟩
      cases hnone
  · constructor
    · intro hanswer
      exact ⟨staged, rfl, (Except.ok.inj hanswer).symm⟩
    · rintro ⟨other, hsome, rfl⟩
      obtain rfl := Option.some.inj hsome
      rfl

omit [Librustzcash] [Sha256] in
/-- A lookup by hash finds the first tree state that has it, which is still there. -/
theorem Shelved.treestate_hash (h : Shelved s shelf) {wireHash : Bytes}
    (hlen : wireHash.length = hashLen) :
    (∃ staged, shelf.trees staged.height = some staged ∧ staged.hash = wireToDisplayHex wireHash ∧
      s.treestateNode (wireToDisplayHex wireHash) = .ok (nodeTreeState staged)) ∨
    (∀ height staged, shelf.trees height = some staged → staged.hash ≠ wireToDisplayHex wireHash) ∧
      ∃ error, s.treestateNode (wireToDisplayHex wireHash) = .error error := by
  have hlong : ¬(wireToDisplayHex wireHash).utf8ByteSize < 64 := by
    rw [utf8ByteSize_wireToDisplayHex, hlen]
    decide
  unfold treestateNode treestate
  rw [if_neg hlong]
  rcases h.trees.find?_cases fun staged => staged.hash = wireToDisplayHex wireHash with
    ⟨staged, hfind, hhash, hheld⟩ | ⟨hfind, hnone⟩
  · refine Or.inl ⟨staged, hheld, of_decide_eq_true hhash, ?_⟩
    rw [hfind]
    rfl
  · refine Or.inr ⟨fun height staged hheld => of_decide_eq_false (hnone height staged hheld), ?_⟩
    rw [hfind]
    exact ⟨_, rfl⟩

/--
**Wallets read the tree states that were staged.**  After any operations of the control
plane, also ones that failed: a request by height gets the tree state that was put at that
height last, if it has not been removed since, under the network's name and with the rest
as staged; one by hash gets a tree state with that hash, and fails only if there is none;
and the latest tree state is that of the presented tip.
-/
theorem tree_states (ops : List ControlOp) (network : String) :
    (∀ blockId treeState, 0 < blockId.height → blockId.height ≤ u64Max →
      (getTreeState network (run .new ops).treestateNode blockId = .ok treeState ↔
        ∃ staged, (Shelf.run ops).trees blockId.height = some staged ∧ staged.Holds ∧
          treeState = { staged with network := network })) ∧
    (∀ wireHash : Bytes, wireHash.length = hashLen →
      (∃ staged, (Shelf.run ops).trees staged.height = some staged ∧
        staged.hash = wireToDisplayHex wireHash ∧ ∀ treeState,
          (getTreeState network (run .new ops).treestateNode ⟨0, wireHash⟩ = .ok treeState ↔
            staged.Holds ∧ treeState = { staged with network := network })) ∨
      (∀ height staged, (Shelf.run ops).trees height = some staged →
        staged.hash ≠ wireToDisplayHex wireHash) ∧
      ∃ status, getTreeState network (run .new ops).treestateNode ⟨0, wireHash⟩ = .error status) ∧
    (∀ info treeState, (run .new ops).blockchainInfo = .ok info → info.blocks ≤ u64Max →
      (getLatestTreeState network (.ok info) (run .new ops).treestateNode = .ok treeState ↔
        ∃ staged, (Shelf.run ops).trees info.blocks = some staged ∧ staged.Holds ∧
          treeState = { staged with network := network })) := by
  have h := shelved_run ops
  have hread : ∀ {height : Nat}, height ≤ u64Max → ∀ treeState,
      ((((run .new ops).treestateNode (toString height)).mapError NodeError.toStatus >>=
          nodeTreeStateToProto network) = .ok treeState ↔
        ∃ staged, (Shelf.run ops).trees height = some staged ∧ staged.Holds ∧
          treeState = { staged with network := network }) := by
    intro height hheight treeState
    rw [Except.bind_eq_ok]
    constructor
    · rintro ⟨answer, hanswer, hproto⟩
      obtain ⟨staged, hheld, rfl⟩ :=
          (h.treestate_height hheight).mp (Except.mapError_eq_ok.mp hanswer)
      exact ⟨staged, hheld, nodeTreeStateToProto_eq_ok.mp hproto⟩
    · rintro ⟨staged, hheld, hproto⟩
      exact ⟨nodeTreeState staged,
        Except.mapError_eq_ok.mpr ((h.treestate_height hheight).mpr ⟨staged, hheld, rfl⟩),
        nodeTreeStateToProto_eq_ok.mpr hproto⟩
  refine ⟨fun blockId treeState hpos hheight => ?_, fun wireHash hlen => ?_,
    fun info treeState _ hblocks => hread hblocks treeState⟩
  · have hid : treestateId blockId = .ok (toString blockId.height) := by
      unfold treestateId
      rw [if_neg fun hzero => Nat.ne_of_gt hpos hzero.1, if_pos hpos]
    unfold getTreeState
    rw [hid]
    exact hread hheight treeState
  · have hid : treestateId ⟨0, wireHash⟩ = .ok (wireToDisplayHex wireHash) := by
      have hne : wireHash ≠ [] := by
        rintro rfl
        cases hlen
      unfold treestateId
      rw [if_neg fun hzero => hne hzero.2, if_neg (Nat.lt_irrefl 0), if_neg (not_not.mpr hlen)]
    unfold getTreeState
    rw [hid, Except.ok_bind]
    rcases h.treestate_hash hlen with ⟨staged, hheld, hhash, hanswer⟩ | ⟨hnone, error, hanswer⟩
    · refine Or.inl ⟨staged, hheld, hhash, fun treeState => ?_⟩
      rw [hanswer]
      exact nodeTreeStateToProto_eq_ok
    · refine Or.inr ⟨hnone, error.toStatus, ?_⟩
      rw [hanswer]
      rfl

end

def treeAtTwo (time : Nat) (wireHash : Bytes) : TreeState where
  network := ""
  height := 2
  hash := wireToDisplayHex wireHash
  time := time
  saplingTree := "00"
  orchardTree := ""
  ironwoodTree := ""

/-- Two tree states for the same height, one after the other. -/
def replantedChain : List ControlOp := minedChain ++
  [.addTreestate (treeAtTwo 1 (List.replicate 32 1)),
    .addTreestate (treeAtTwo 2 (List.replicate 32 2))]

/-- The second one is what a wallet reads, by its height and by its hash. -/
theorem replantedChain_reads :
    getTreeState "main" (run .new replantedChain).treestateNode ⟨2, []⟩
      = .ok { treeAtTwo 2 (List.replicate 32 2) with network := "main" } ∧
    getTreeState "main" (run .new replantedChain).treestateNode ⟨0, List.replicate 32 2⟩
      = .ok { treeAtTwo 2 (List.replicate 32 2) with network := "main" } := by
  obtain ⟨hheight, hhash, -⟩ := tree_states replantedChain "main"
  have hheld : (Shelf.run replantedChain).trees 2
      = some (treeAtTwo 2 (List.replicate 32 2)) := by
    simp [Shelf.run, replantedChain, minedChain, Shelf.after, Shelf.putTree, Shelf.empty, treeAtTwo]
  have hholds : (treeAtTwo 2 (List.replicate 32 2)).Holds := fun h => absurd h.1 (by decide)
  refine ⟨(hheight ⟨2, []⟩ _ (by decide) (by decide)).mpr ⟨_, hheld, hholds, rfl⟩, ?_⟩
  rcases hhash (List.replicate 32 2) rfl with ⟨staged, hstaged, heq, hread⟩ | ⟨hnone, -⟩
  · have hothers : ∀ height, height ≠ 2 → (Shelf.run replantedChain).trees height = none := by
      intro height hne
      simp [Shelf.run, replantedChain, minedChain, Shelf.after, Shelf.putTree, Shelf.empty,
        treeAtTwo, hne]
    have htwo : staged.height = 2 := by
      by_contra hne
      rw [hothers _ hne] at hstaged
      cases hstaged
    rw [htwo, hheld] at hstaged
    obtain rfl := Option.some.inj hstaged
    exact (hread _).mpr ⟨hholds, rfl⟩
  · exact absurd rfl (hnone 2 _ hheld)

end DarksideState

end Lightwalletd
