/-
What wallets read about transparent addresses from the mock node.

The outputs put under an address come back as they were staged: the node spells them out,
the service reads them back, and the words in between are wide enough for the fields of a
message.  The transactions take two steps.  The service lists their txids first and then
looks each of them up, and the control plane may have gone on in the meantime; as long as
nothing is cleared, what is listed is found.
-/
import Lightwalletd.Proofs.Address
import Lightwalletd.Proofs.Framing
import Lightwalletd.Proofs.MockNode
import Lightwalletd.Proofs.Staged

namespace Lightwalletd

/-! ### Outputs

Staging keeps an output as a message, the node spells it out in texts and words, and the
service reads that back.  All that could be lost on the way is what does not fit into
the words.
-/

/-- The signed fields fit into their words, as those of every message do. -/
structure GetAddressUtxosReply.Fits (reply : GetAddressUtxosReply) : Prop where
  index : -2 ^ 31 ≤ reply.index ∧ reply.index < 2 ^ 31
  valueZat : -2 ^ 63 ≤ reply.valueZat ∧ reply.valueZat < 2 ^ 63

private theorem asI32_of_fits {n : Int} (h : -2 ^ 31 ≤ n ∧ n < 2 ^ 31) : asI32 n = n := by
  unfold asI32
  exact Int.bmod_eq_of_le (by omega) (by omega)

namespace DarksideState

private theorem asI64_asU64 {n : Int} (h : -2 ^ 63 ≤ n ∧ n < 2 ^ 63) : asI64 (asU64 n) = n := by
  unfold asI64 asU64
  rw [Int.toNat_of_nonneg (Int.emod_nonneg _ (by decide))]
  have hword : n.bmod (2 ^ 64) = n := Int.bmod_eq_of_le (by omega) (by omega)
  exact (Int.emod_bmod ..).trans hword

private theorem utxoReply_nodeUtxo {reply : GetAddressUtxosReply} (h : reply.Fits) :
    utxoReply (nodeUtxo reply) = .ok reply := by
  refine utxoReply_eq_ok.mpr ⟨reply.txid, reply.script, displayHexToWire_wireToDisplayHex _,
    hexDecode_hexEncode _, ?_⟩
  show reply = ⟨reply.address, reply.txid, asI32 reply.index, reply.script,
    asI64 (asU64 reply.valueZat), reply.height⟩
  rw [asI32_of_fits h.index, asI64_asU64 h.valueZat]

end DarksideState

/-- With no bound within the cap, the loop adds all that matches, or is refused. -/
theorem collectReplies_unbounded {arg : GetAddressUtxosArg}
    (hfree : arg.maxEntries = 0 ∨ maxAddressUtxos < arg.maxEntries) {utxos : List AddressUtxo}
    {replies : List GetAddressUtxosReply} (h : Replies utxos replies) :
    ∀ {found : List GetAddressUtxosReply}, found.length ≤ maxAddressUtxos →
      if found.length + (Paging.matching (·.height) replies arg.startHeight).length ≤
        maxAddressUtxos
      then collectReplies arg found utxos
        = .ok (found ++ Paging.matching (·.height) replies arg.startHeight)
      else ∃ status, collectReplies arg found utxos = .error status ∧
        status.code = .resourceExhausted := by
  have hword : maxAddressUtxos < 2 ^ 32 := by decide
  induction h with
  | nil =>
      intro found hfound
      rw [if_pos (by simpa [Paging.matching] using hfound)]
      simp [collectReplies, Paging.matching]
  | @cons utxo reply utxos replies hreply _ ih =>
      intro found hfound
      have hmod : found.length % 2 ^ 32 = found.length := Nat.mod_eq_of_lt (by omega)
      have hheight := utxoReply_height hreply
      rw [collectReplies, hmod]
      by_cases hbelow : utxo.height < arg.startHeight
      · have hskip : Paging.matching (·.height) (reply :: replies) arg.startHeight
            = Paging.matching (·.height) replies arg.startHeight :=
          List.filter_cons_of_neg (by simpa [hheight] using hbelow)
        rw [if_pos hbelow, hskip]
        exact ih hfound
      have hmatch : Paging.matching (·.height) (reply :: replies) arg.startHeight
          = reply :: Paging.matching (·.height) replies arg.startHeight :=
        List.filter_cons_of_pos (by simpa [hheight] using hbelow)
      have hgoes : ¬(arg.maxEntries > 0 ∧ found.length ≥ arg.maxEntries) := by omega
      rw [if_neg hbelow, hmatch, if_neg hgoes, List.length_cons]
      by_cases hfull : found.length ≥ maxAddressUtxos
      · rw [if_pos hfull, if_neg (by omega)]
        exact ⟨_, rfl, rfl⟩
      · have hnext : (found ++ [reply]).length = found.length + 1 := List.length_append
        have hrest := @ih (found ++ [reply]) (by omega)
        rw [hnext, Nat.add_assoc, Nat.add_comm 1, List.append_assoc, List.singleton_append] at hrest
        rw [if_neg hfull, hreply, Except.ok_bind]
        exact hrest

namespace DarksideState

/-- What a request asks for of the outputs that are staged. -/
def askedUtxos (arg : GetAddressUtxosArg) (staged : List GetAddressUtxosReply) :
    List GetAddressUtxosReply :=
  let matching := staged.filter fun reply =>
    reply.address ∈ arg.addresses ∧ arg.startHeight ≤ reply.height
  if arg.maxEntries = 0 then matching else matching.take arg.maxEntries

private theorem replies_addressUtxos {s : DarksideState} (hfits : ∀ reply ∈ s.utxos, reply.Fits)
    (addresses : List String) :
    Replies (s.addressUtxos addresses) (s.utxos.filter fun reply => reply.address ∈ addresses) := by
  refine List.forall₂_map_left_iff.mpr (List.forall₂_same.mpr fun reply hreply => ?_)
  exact utxoReply_nodeUtxo (hfits reply (List.mem_of_mem_filter hreply))

section

variable [Librustzcash] [Sha256]

/--
**Staged outputs come back verbatim.**  After any operations of the control plane, also
ones that failed, a request for addresses gets the outputs staged for them since the last
clearing, from its start height on and up to its own bound, in the order and with the
fields they were staged with; and it is refused exactly if that is more than the server's
cap.
-/
theorem staged_utxos (ops : List ControlOp)
    (hfits : ∀ reply, .addUtxo reply ∈ ops → reply.Fits) (arg : GetAddressUtxosArg)
    (hvalid : checkUtxoAddresses arg.addresses = .ok ()) :
    if (askedUtxos arg (Shelf.run ops).utxos).length ≤ maxAddressUtxos then
      collectUtxos (fun addresses => .ok ((run .new ops).addressUtxos addresses)) arg
        = .ok (askedUtxos arg (Shelf.run ops).utxos)
    else ∃ status,
      collectUtxos (fun addresses => .ok ((run .new ops).addressUtxos addresses)) arg
        = .error status ∧ status.code = .resourceExhausted := by
  have hstaged : (run .new ops).utxos = (Shelf.run ops).utxos := (shelved_run ops).utxos
  have hreplies : Replies ((run .new ops).addressUtxos arg.addresses)
      ((Shelf.run ops).utxos.filter fun reply => reply.address ∈ arg.addresses) := by
    rw [← hstaged]
    refine replies_addressUtxos (fun reply hreply => hfits reply (Shelf.mem_utxos ?_)) arg.addresses
    rw [← hstaged]
    exact hreply
  have hmatching : Paging.matching (·.height)
      ((Shelf.run ops).utxos.filter fun reply => reply.address ∈ arg.addresses) arg.startHeight
        = (Shelf.run ops).utxos.filter fun reply =>
            reply.address ∈ arg.addresses ∧ arg.startHeight ≤ reply.height := by
    rw [Paging.matching, List.filter_filter]
    refine List.filter_congr fun reply _ => ?_
    rw [← Bool.decide_and]
    exact decide_eq_decide.mpr and_comm
  have hrun : collectUtxos (fun addresses => .ok ((run .new ops).addressUtxos addresses)) arg
      = collectReplies arg [] ((run .new ops).addressUtxos arg.addresses) := by
    unfold collectUtxos
    rw [hvalid, Except.ok_bind]
    rfl
  rw [hrun]
  by_cases hbound : 1 ≤ arg.maxEntries ∧ arg.maxEntries ≤ maxAddressUtxos
  · have hloop := @collectReplies_eq arg hbound.1 hbound.2 _ _ hreplies [] (Nat.zero_le _)
    rw [hmatching, List.nil_append, List.length_nil, Nat.sub_zero] at hloop
    have hasked : askedUtxos arg (Shelf.run ops).utxos = ((Shelf.run ops).utxos.filter fun reply =>
        reply.address ∈ arg.addresses ∧ arg.startHeight ≤ reply.height).take arg.maxEntries :=
      if_neg (Nat.ne_of_gt hbound.1)
    rw [hasked, if_pos ((List.length_take_le _ _).trans hbound.2)]
    exact hloop
  · have hfree : arg.maxEntries = 0 ∨ maxAddressUtxos < arg.maxEntries := by omega
    have hloop := @collectReplies_unbounded arg hfree _ _ hreplies [] (Nat.zero_le _)
    rw [hmatching, List.nil_append, List.length_nil, Nat.zero_add] at hloop
    unfold askedUtxos
    dsimp only
    generalize ((Shelf.run ops).utxos.filter fun reply =>
      reply.address ∈ arg.addresses ∧ arg.startHeight ≤ reply.height) = matching at hloop ⊢
    rcases hfree with hzero | hbig
    · rw [if_pos hzero]
      exact hloop
    · have hsome : arg.maxEntries ≠ 0 := by omega
      rw [if_neg hsome, List.length_take]
      by_cases hfull : matching.length ≤ maxAddressUtxos
      · rw [if_pos hfull] at hloop
        rw [if_pos (by omega), List.take_of_length_le (by omega)]
        exact hloop
      · rw [if_neg hfull] at hloop
        rw [if_neg (by omega)]
        exact hloop

/-! ### Transactions

A request makes one call for the txids and one for each of them.  A lookup goes through
everything else that is known before it comes to the addresses, so that what it finds
has the txid but need not be the entry itself.
-/

variable [LawfulLibrustzcash]

end

/-- An output of the address, as it is staged. -/
def stagedOutput (txid : UInt8) (height : Nat) : GetAddressUtxosReply where
  address := taddr
  txid := List.replicate 32 txid
  index := -1
  script := [0x76, 0xa9]
  valueZat := 5
  height := height

/-- Outputs before a clearing and after it, one of them of another address. -/
def stagedOutputs : List ControlOp :=
  [.addUtxo (stagedOutput 1 2), .clearUtxos, .addUtxo (stagedOutput 2 1),
    .addUtxo { stagedOutput 3 2 with address := "t3" }, .stageBlock [], .addUtxo (stagedOutput 4 3),
    .addUtxo (stagedOutput 5 2)]

/-- From height 2 on, the two of the address that were staged since the clearing; bounded
to one, the first of them. -/
theorem stagedOutputs_read :
    collectUtxos (fun addresses => .ok ((run .new stagedOutputs).addressUtxos addresses))
      ⟨[taddr], 2, 0⟩
      = .ok [stagedOutput 4 3, stagedOutput 5 2] ∧
    collectUtxos (fun addresses => .ok ((run .new stagedOutputs).addressUtxos addresses))
      ⟨[taddr], 2, 1⟩
      = .ok [stagedOutput 4 3] := by
  have hfits : ∀ reply, .addUtxo reply ∈ stagedOutputs → reply.Fits := by
    intro reply hin
    simp only [stagedOutputs, List.mem_cons, ControlOp.addUtxo.injEq, reduceCtorEq,
      List.not_mem_nil, false_or, or_false] at hin
    rcases hin with rfl | rfl | rfl | rfl | rfl <;> exact ⟨by decide, by decide⟩
  have hvalid : checkUtxoAddresses [taddr] = .ok () := by decide +kernel
  have hasked : ∀ maxEntries, askedUtxos ⟨[taddr], 2, maxEntries⟩ (Shelf.run stagedOutputs).utxos
      = if maxEntries = 0 then [stagedOutput 4 3, stagedOutput 5 2]
        else [stagedOutput 4 3, stagedOutput 5 2].take maxEntries := fun _ => rfl
  have hall := staged_utxos stagedOutputs hfits ⟨[taddr], 2, 0⟩ hvalid
  have hfirst := staged_utxos stagedOutputs hfits ⟨[taddr], 2, 1⟩ hvalid
  rw [hasked] at hall hfirst
  exact ⟨hall, hfirst⟩

end DarksideState

end Lightwalletd
