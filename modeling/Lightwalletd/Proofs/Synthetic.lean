/-
Which heights `StageBlocksCreate` stages.

A synthetic block carries its height in the script of its coinbase, as the four bytes
that are patched into a transaction of the real chain.  The push in front of them is
that transaction's, though, and it is a push of three bytes.  So what is read back is
the height up to its highest byte, and the heights of a request come out as they were
asked for exactly if none of them has anything in the fourth byte.
-/
import Lightwalletd.TransparentV4
import Lightwalletd.Proofs.CoinbaseHeight
import Lightwalletd.Proofs.Served

namespace Lightwalletd

/-! ### Splitting what was put together -/

section

variable [Librustzcash] [LawfulLibrustzcash]

theorem splitTxs_flatten (txs : List Bytes) (hwhole : ∀ tx ∈ txs, Whole tx) :
    splitTxs txs.length txs.flatten = .ok (txs, []) := by
  induction txs with
  | nil => rfl
  | cons tx txs ih =>
      obtain ⟨parsed, hreads⟩ := (hwhole tx List.mem_cons_self).reads
      have hrest := ih fun other hother => hwhole other (List.mem_cons_of_mem _ hother)
      rw [List.length_cons, List.flatten_cons]
      refine Except.bind_eq_ok.mpr ⟨(parsed, txs.flatten), Except.mapError_eq_ok.mpr (hreads _), ?_⟩
      refine Except.bind_eq_ok.mpr ⟨(txs, []), hrest, ?_⟩
      simp only [List.length_append, Nat.add_sub_cancel, List.take_left]
      rfl

theorem splitBlock_append {header : Bytes} (h : Framed header) (txs : List Bytes)
    (hcount : txs.length ≤ 0x02000000) (hwhole : ∀ tx ∈ txs, Whole tx) :
    splitBlock (header ++ (writeCompactSize txs.length ++ txs.flatten)) = .ok (header, txs) := by
  refine Except.bind_eq_ok.mpr ⟨_, headerEnd_append h _, ?_⟩
  rw [List.drop_left, List.take_left]
  refine Except.bind_eq_ok.mpr ⟨(txs.length, txs.flatten),
    Except.mapError_eq_ok.mpr (readCompactSize_write hcount _), ?_⟩
  exact Except.bind_eq_ok.mpr ⟨(txs, []), splitTxs_flatten txs hwhole,
    Except.bind_eq_ok.mpr ⟨(), if_pos rfl, rfl⟩⟩

end

/-! ### The coinbase

Its height is patched in as three bytes, and read back through the same push.
-/

/-- What follows the height in the script of the coinbase. -/
def scriptRest : Bytes := [
  0x04, 0x38, 0x55, 0x97, 0x5e, 0x46, 0x4b, 0x88, 0x96, 0x79, 0x07, 0x58, 0xf8, 0x24, 0xce, 0xac,
  0x97, 0x83, 0x62, 0x2c, 0x17, 0xed, 0x38, 0xf1, 0x66, 0x9b, 0x8a, 0x45, 0xce, 0x1d, 0xa8, 0x57,
  0xdb, 0xbe, 0x79, 0x50, 0xe2]

/-- The coinbase of a synthetic block, with the four bytes of its height. -/
def syntheticCoinbase (heightLe : Bytes) : TransparentV4 where
  vin := [(⟨List.replicate 32 0, 0xffffffff, 3 :: (heightLe ++ scriptRest)⟩, 0xffffffff)]
  vout := [
    ⟨500100000, [
      0x76, 0xa9, 0x14, 0x7e, 0xd1, 0x59, 0x46, 0xec, 0x14, 0xae, 0x0c, 0xd8, 0xfa,
        0x89, 0x91, 0xeb,
      0x60, 0x84, 0x45, 0x2e, 0xb3, 0xf7, 0x7c, 0x88, 0xac]⟩,
    ⟨125000000, [
      0xa9, 0x14, 0xe4, 0x45, 0xcf, 0xa9, 0x44, 0xb6, 0xf2, 0xbd, 0xac, 0xef, 0xbd,
        0xa9, 0x04, 0xa8,
      0x1d, 0x5f, 0xdd, 0x26, 0xd7, 0x7f, 0x87]⟩]
  lockTime := 0
  expiryHeight := 0

/-- The coinbase up to the bytes of its height. -/
def coinbaseHead : Bytes :=
  leBytes 4 TransparentV4.version ++ (leBytes 4 TransparentV4.versionGroupId ++
    (1 :: (List.replicate 32 0 ++ (leBytes 4 0xffffffff ++ [42, 3]))))

/-- The coinbase from after them on. -/
def coinbaseTail : Bytes :=
  scriptRest ++ (leBytes 4 0xffffffff ++ (2 ::
    ((syntheticCoinbase []).vout.flatMap TransparentV4.writeOutput ++
      (syntheticCoinbase []).writeTail)))

private theorem fakeCoinbaseHead_eq : fakeCoinbaseHead = hexEncode coinbaseHead := by decide +kernel

private theorem fakeCoinbaseTail_eq : fakeCoinbaseTail = hexEncode coinbaseTail := by decide +kernel

theorem hexEncode_append (a b : Bytes) : hexEncode (a ++ b) = hexEncode a ++ hexEncode b := by
  rw [hexEncode, hexEncode, hexEncode, List.flatMap_append, String.ofList_append]

theorem syntheticCoinbase_write {heightLe : Bytes} (h : heightLe.length = 4) :
    (syntheticCoinbase heightLe).write = coinbaseHead ++ heightLe ++ coinbaseTail := by
  have hscript : (3 :: (heightLe ++ scriptRest)).length = 42 := by simp [scriptRest, h]
  have hsize : TransparentV4.writeScript (3 :: (heightLe ++ scriptRest))
      = [42, 3] ++ (heightLe ++ scriptRest) := by
    rw [TransparentV4.writeScript, hscript]
    rfl
  have hinput : (syntheticCoinbase heightLe).vin.flatMap TransparentV4.writeInput
      = List.replicate 32 0 ++ (leBytes 4 0xffffffff ++
        ([42, 3] ++ (heightLe ++ (scriptRest ++ leBytes 4 0xffffffff)))) := by
    simp only [syntheticCoinbase, List.flatMap_cons, List.flatMap_nil, List.append_nil,
      TransparentV4.writeInput, hsize, List.append_assoc]
  rw [TransparentV4.write, hinput]
  simp only [coinbaseHead, coinbaseTail, List.append_assoc, List.cons_append, List.nil_append]
  rfl

theorem syntheticCoinbase_wellFormed {heightLe : Bytes} (h : heightLe.length = 4) :
    (syntheticCoinbase heightLe).WellFormed where
  some := Or.inl (by simp [syntheticCoinbase])
  inputs := by simp [syntheticCoinbase]
  outputs := by simp [syntheticCoinbase]
  input := by simp [syntheticCoinbase, scriptRest, h]
  output := by simp [syntheticCoinbase, TransparentV4.maxMoney]

/-! ### The block -/

section

variable [Sha256]

def syntheticHeader (height nonce : Int) : Bytes :=
  leBytes 4 4 ++ List.replicate 32 0 ++ Sha256.digest (chainBytes s!"{nonce}#{height}") ++
    List.replicate 32 0 ++ leBytes 4 1 ++ List.replicate 4 0 ++ List.replicate 32 0 ++
    writeCompactSize 1344 ++ List.replicate 1344 0

def syntheticRaw (height nonce : Int) : Bytes :=
  syntheticHeader height nonce ++ (writeCompactSize 1 ++
    (syntheticCoinbase (leBytes 4 (asU32 height))).write)

theorem syntheticBlock_eq (height nonce : Int) :
    syntheticBlock height nonce = .ok (syntheticRaw height nonce) := by
  have hhex : fakeCoinbaseHead ++ hexEncode (leBytes 4 (asU32 height)) ++ fakeCoinbaseTail
      = hexEncode (syntheticCoinbase (leBytes 4 (asU32 height))).write := by
    rw [fakeCoinbaseHead_eq, fakeCoinbaseTail_eq, ← hexEncode_append, ← hexEncode_append,
      syntheticCoinbase_write (leBytes_length 4 _)]
  refine Except.bind_eq_ok.mpr ⟨(syntheticCoinbase (leBytes 4 (asU32 height))).write,
    Except.mapError_eq_ok.mpr ?_, ?_⟩
  · rw [hhex]
    exact hexDecode_hexEncode _
  · rw [syntheticRaw, ← List.append_assoc]
    rfl

theorem syntheticHeader_framed (height nonce : Int) : Framed (syntheticHeader height nonce) := by
  obtain ⟨front, hfront⟩ : ∃ front, front = leBytes 4 4 ++ List.replicate 32 0 ++
      Sha256.digest (chainBytes s!"{nonce}#{height}") ++ List.replicate 32 0 ++ leBytes 4 1 ++
      List.replicate 4 0 ++ List.replicate 32 0 := ⟨_, rfl⟩
  have hlength : front.length = headerPrefixLen := by
    simp [hfront, Sha256.digest_length, headerPrefixLen]
  have hheader : syntheticHeader height nonce
      = front ++ (writeCompactSize 1344 ++ List.replicate 1344 0) := by
    rw [syntheticHeader, ← hfront, List.append_assoc]
  refine ⟨1344, List.replicate 1344 0, by decide, List.length_replicate, ?_, ?_⟩
  · rw [hheader, List.length_append]
    omega
  · rw [hheader, ← hlength, List.drop_left]

variable [Librustzcash] [LawfulLibrustzcash]

/-- The part of a height that the push of the coinbase takes. -/
def pushedPart (height : Int) : Nat := height.toNat % 256 ^ 3

/-- The height that is read back is what three bytes hold of the one that was written. -/
theorem rawBlockHeight_synthetic (hv4 : ReadsTransparentV4) {height : Int} (nonce : Int)
    (hpos : 0 ≤ height) (hmax : height < 2 ^ 32) :
    rawBlockHeight (syntheticRaw height nonce) = .ok (pushedPart height) := by
  obtain ⟨heightLe, hle⟩ : ∃ bytes, bytes = leBytes 4 (asU32 height) := ⟨_, rfl⟩
  have hfour : heightLe.length = 4 := by rw [hle, leBytes_length]
  obtain ⟨parsed, hbundle, hreads⟩ := hv4 _ (syntheticCoinbase_wellFormed hfour)
  have hread : Librustzcash.readTransaction (syntheticCoinbase heightLe).write
      = .ok (parsed, []) := by
    simpa using hreads []
  have hsplit : splitBlock (syntheticRaw height nonce)
      = .ok (syntheticHeader height nonce, [(syntheticCoinbase heightLe).write]) := by
    have := splitBlock_append (syntheticHeader_framed height nonce)
      [(syntheticCoinbase heightLe).write] (by simp) (by simpa using ⟨parsed, hread⟩)
    simpa [syntheticRaw, ← hle] using this
  have hvalue : asU32 height = height.toNat := by
    unfold asU32
    omega
  have hheight : coinbaseHeight parsed = .ok (pushedPart height) := by
    have hinput : parsed.transparentBundle.bind (·.vin.head?)
        = some ⟨List.replicate 32 0, 0xffffffff, 3 :: (heightLe ++ scriptRest)⟩ := by
      rw [hbundle]
      rfl
    -- The push takes three bytes of the four.
    have hscript : 3 :: (heightLe ++ scriptRest) = UInt8.ofNat (leBytes 3 height.toNat).length ::
        (leBytes 3 height.toNat ++
          (UInt8.ofNat (height.toNat / 256 / 256 / 256 % 256) :: scriptRest)) := by
      rw [hle, hvalue, leBytes_length]
      rfl
    rw [coinbaseHeight_pushed hinput (by simp) (by simp) hscript, ofLeBytes_leBytes]
    have hlt := Nat.mod_lt height.toNat (show 0 < 256 ^ 3 by decide)
    exact congrArg _ (if_neg (by unfold genesisTargetDifficulty; omega))
  refine Except.bind_eq_ok.mpr ⟨_, Except.mapError_eq_ok.mpr hsplit, ?_⟩
  refine Except.mapError_eq_ok.mpr (Except.bind_eq_ok.mpr ⟨_, Except.mapError_eq_ok.mpr hread, ?_⟩)
  exact hheight

/-! ### The loop

Each round stages a block at the next height.  The height read back starts over after
three bytes, and a block that reads as too low is refused.
-/

namespace DarksideState

omit [Sha256] [LawfulLibrustzcash] in
theorem stageBlock_of_height {s : DarksideState} {raw : Bytes} {height : Nat}
    (hreset : s.wasReset = true) (hheight : rawBlockHeight raw = .ok height) :
    (height < s.startHeight ∧ ∃ e, s.stageBlock raw = (s, .error e)) ∨
    (s.startHeight ≤ height ∧
      s.stageBlock raw = ({ s with stagedBlocks := s.stagedBlocks ++ [raw] }, .ok ())) := by
  by_cases hlow : height < s.startHeight
  · exact Or.inl ⟨hlow, _, by simp only [stageBlock, hreset, hheight, hlow]; rfl⟩
  · exact Or.inr ⟨Nat.le_of_not_lt hlow, by simp only [stageBlock, hreset, hheight, hlow]; rfl⟩

omit [Sha256] [Librustzcash] [LawfulLibrustzcash] in
private theorem wrapI32_of_le {n : Int} (hpos : 0 ≤ n) (hmax : n ≤ 2 ^ 31 - 1) : wrapI32 n = n := by
  unfold wrapI32
  omega

/-- One round of the loop stages the block of its height, or fails because what is read
back is too low. -/
theorem stageSynthetic_succ (hv4 : ReadsTransparentV4) {s : DarksideState} {height : Int}
    (nonce : Int) {count : Nat} (hreset : s.wasReset = true) (hpos : 0 ≤ height)
    (hmax : height + (count + 1 : Nat) ≤ 2 ^ 31 - 1) :
    (pushedPart height < s.startHeight ∧
      ∃ e, stageSynthetic nonce (count + 1) height s = (s, .error e)) ∨
    (s.startHeight ≤ pushedPart height ∧ stageSynthetic nonce (count + 1) height s
      = stageSynthetic nonce count (height + 1)
        { s with stagedBlocks := s.stagedBlocks ++ [syntheticRaw height nonce] }) := by
  have hheight := rawBlockHeight_synthetic hv4 nonce hpos (by omega)
  have hnext : wrapI32 (height + 1) = height + 1 := wrapI32_of_le (by omega) (by omega)
  rcases stageBlock_of_height hreset hheight with ⟨hlow, e, hfail⟩ | ⟨hlow, hok⟩
  · refine Or.inl ⟨hlow, e, ?_⟩
    unfold stageSynthetic
    simp only [syntheticBlock_eq, hfail]
  · refine Or.inr ⟨hlow, ?_⟩
    conv_lhs => unfold stageSynthetic
    simp only [syntheticBlock_eq, hok, hnext]

/-- The blocks of a request. -/
def syntheticRaws (height nonce : Int) (count : Nat) : List Bytes :=
  (List.range count).map fun i : Nat => syntheticRaw (height + i) nonce

omit [Librustzcash] [LawfulLibrustzcash] in
private theorem syntheticRaws_succ (height nonce : Int) (count : Nat) :
    syntheticRaws height nonce (count + 1)
      = syntheticRaw height nonce :: syntheticRaws (height + 1) nonce count := by
  rw [syntheticRaws, List.range_succ_eq_map, List.map_cons, List.map_map, syntheticRaws]
  simp only [Nat.cast_zero, Int.add_zero, List.cons.injEq, true_and]
  refine List.map_congr_left fun i _ => ?_
  simp only [Function.comp_apply, Nat.cast_succ]
  rw [Int.add_assoc, Int.add_comm 1]

/-- The loop succeeds exactly if no height reads back too low, and then it has staged every
block of the request. -/
theorem stageSynthetic_ok (hv4 : ReadsTransparentV4) (nonce : Int) :
    ∀ (count : Nat) {s : DarksideState} {height : Int}, s.wasReset = true → 0 ≤ height →
      height + count ≤ 2 ^ 31 - 1 →
      ((stageSynthetic nonce count height s).2 = .ok () ↔
        ∀ i : Nat, i < count → s.startHeight ≤ pushedPart (height + i)) ∧
      ((stageSynthetic nonce count height s).2 = .ok () → stageSynthetic nonce count height s
        = ({ s with stagedBlocks := s.stagedBlocks ++ syntheticRaws height nonce count },
          .ok ())) := by
  intro count
  induction count with
  | zero =>
      intro s height _ _ _
      have hnone : stageSynthetic nonce 0 height s = (s, .ok ()) := rfl
      rw [hnone]
      simp [syntheticRaws]
  | succ count ih =>
      intro s height hreset hpos hmax
      have hsplit : (∀ i : Nat, i < count + 1 → s.startHeight ≤ pushedPart (height + i)) ↔
          s.startHeight ≤ pushedPart height ∧
            ∀ i : Nat, i < count → s.startHeight ≤ pushedPart (height + 1 + i) := by
        have hshift : ∀ i : Nat, height + (i + 1 : Nat) = height + 1 + i := by
          intro i
          push_cast
          omega
        constructor
        · intro hall
          refine ⟨by simpa using hall 0 (by omega), fun i hi => ?_⟩
          rw [← hshift]
          exact hall (i + 1) (by omega)
        · rintro ⟨hfirst, hrest⟩ i hi
          cases i with
          | zero => simpa using hfirst
          | succ i =>
              rw [hshift]
              exact hrest i (by omega)
      rw [hsplit]
      rcases stageSynthetic_succ hv4 nonce hreset hpos hmax with ⟨hlow, e, hfail⟩ | ⟨hlow, hstep⟩
      · rw [hfail]
        simp
        omega
      · obtain ⟨hiff, hblocks⟩ := @ih { s with
          stagedBlocks := s.stagedBlocks ++ [syntheticRaw height nonce] } (height + 1) hreset
          (by omega) (by push_cast at hmax ⊢; omega)
        rw [hstep, hiff, and_iff_right hlow]
        refine ⟨Iff.rfl, fun hall => ?_⟩
        rw [hblocks (hiff.mpr hall), syntheticRaws_succ]
        simp

omit [LawfulLibrustzcash] in
theorem stageBlocksCreate_eq {s : DarksideState} (hreset : s.wasReset = true) (height nonce : Int)
    (count : Nat) :
    s.stageBlocksCreate height nonce count = stageSynthetic nonce count height s := by
  simp [stageBlocksCreate, hreset]

/-- A request is served as it was asked for: `count` blocks are staged, and the heights read
back from them are the ones from `height` on. -/
def StagesHeights (s : DarksideState) (height nonce count : Int) : Prop :=
  ∃ blocks : List Bytes,
    s.stageBlocksCreate height nonce count
      = ({ s with stagedBlocks := s.stagedBlocks ++ blocks }, .ok ()) ∧
    (blocks.length : Int) = count ∧
    ∀ (j : Nat) raw, blocks[j]? = some raw → rawBlockHeight raw = .ok (height + j).toNat

omit [Librustzcash] [LawfulLibrustzcash] in
@[simp] theorem syntheticRaws_length (height nonce : Int) (count : Nat) :
    (syntheticRaws height nonce count).length = count := by
  rw [syntheticRaws, List.length_map, List.length_range]

omit [Librustzcash] [LawfulLibrustzcash] in
theorem syntheticRaws_get (height nonce : Int) {count j : Nat} (h : j < count) :
    (syntheticRaws height nonce count)[j]? = some (syntheticRaw (height + j) nonce) := by
  rw [syntheticRaws, List.getElem?_map, List.getElem?_range h, Option.map_some]

/--
**Synthetic blocks carry three bytes of their height.**  A request from some height on, not
below the start of the chain, is served as it was asked for exactly if it is for no block at
all or all its heights fit three bytes.
-/
theorem stagesHeights_iff (hv4 : ReadsTransparentV4) {s : DarksideState} {height nonce count : Int}
    (hreset : s.wasReset = true) (hcount : 0 ≤ count) (hlow : s.startHeight ≤ height)
    (hmax : height + count ≤ 2 ^ 31 - 1) :
    s.StagesHeights height nonce count ↔ count = 0 ∨ height + count ≤ 2 ^ 24 := by
  obtain ⟨n, rfl⟩ := Int.eq_ofNat_of_zero_le hcount
  have hpos : 0 ≤ height := by omega
  obtain ⟨hiff, hblocks⟩ := stageSynthetic_ok hv4 nonce n hreset hpos hmax
  have hread : ∀ j : Nat, j < n → rawBlockHeight (syntheticRaw (height + j) nonce)
      = .ok (pushedPart (height + j)) := fun j hj =>
    rawBlockHeight_synthetic hv4 nonce (by omega) (by omega)
  unfold StagesHeights
  rw [stageBlocksCreate_eq hreset]
  constructor
  · rintro ⟨blocks, hstaged, -, hheights⟩
    by_contra hover
    obtain ⟨hsome, hbeyond⟩ := not_or.mp hover
    have hall := hblocks (by rw [hstaged])
    rw [hstaged] at hall
    obtain rfl : blocks = syntheticRaws height nonce n :=
      List.append_cancel_left (congrArg (fun result => result.1.stagedBlocks) hall)
    -- The last block of the request has something in its fourth byte.
    have hlast := hheights (n - 1) _ (syntheticRaws_get height nonce (by omega))
    rw [hread (n - 1) (by omega)] at hlast
    have hpart : pushedPart (height + (n - 1 : Nat)) < 256 ^ 3 := Nat.mod_lt _ (by decide)
    rw [Except.ok.inj hlast] at hpart
    omega
  · intro hfits
    have hpart : ∀ j : Nat, j < n → pushedPart (height + j) = (height + j).toNat := by
      intro j hj
      exact Nat.mod_eq_of_lt (by omega)
    have hok := hblocks (hiff.mpr fun i hi => by rw [hpart i hi]; omega)
    refine ⟨syntheticRaws height nonce n, hok, by simp, ?_⟩
    intro j raw hraw
    have hj : j < n := by
      have := (List.getElem?_eq_some_iff.mp hraw).1
      simpa using this
    rw [syntheticRaws_get height nonce hj] at hraw
    rw [← Option.some.inj hraw, hread j hj, hpart j hj]

end DarksideState

end

namespace DarksideState

/-- A chain from height 1 on. -/
def lowStart : DarksideState := new.reset ⟨1, "2bb40e60", "main", 0⟩

/-- The last height of three bytes is staged, also as the end of a longer request. -/
theorem lowStart_stages :
    @StagesHeights sha2 overwintered lowStart 16777215 0 1 ∧
    @StagesHeights sha2 overwintered lowStart 1000 7 3 ∧
    ¬ @StagesHeights sha2 overwintered lowStart 16777215 0 2 := by
  have hiff := @stagesHeights_iff sha2 overwintered overwintered_lawful overwintered_reads lowStart
  refine ⟨(hiff rfl (by decide) (by decide) (by decide)).mpr (Or.inr (by decide)),
    (hiff rfl (by decide) (by decide) (by decide)).mpr (Or.inr (by decide)), ?_⟩
  rw [hiff rfl (by decide) (by decide) (by decide)]
  decide

/-- The first height of four bytes is read back as 0, which is below the start of the chain,
and refused. -/
theorem lowStart_refuses :
    lowStart.wasReset = true ∧ (lowStart.startHeight : Int) ≤ 16777216 ∧
    (16777216 : Int) + 1 ≤ 2 ^ 31 - 1 ∧
    (@rawBlockHeight overwintered (@syntheticRaw sha2 16777216 0)) = .ok 0 ∧
    (∃ e, @stageBlocksCreate overwintered sha2 lowStart 16777216 0 1 = (lowStart, .error e)) ∧
    ¬ @StagesHeights sha2 overwintered lowStart 16777216 0 1 := by
  have hraw := @rawBlockHeight_synthetic sha2 overwintered overwintered_lawful overwintered_reads
    16777216 0 (by decide) (by decide)
  have hzero : pushedPart 16777216 = 0 := by decide
  rw [hzero] at hraw
  have hrun : ∃ e, @stageBlocksCreate overwintered sha2 lowStart 16777216 0 1
      = (lowStart, .error e) := by
    have hone := @stageBlocksCreate_eq sha2 overwintered lowStart rfl 16777216 0 1
    rcases @stageSynthetic_succ sha2 overwintered overwintered_lawful overwintered_reads lowStart
      16777216 0 0 rfl (by decide) (by decide) with ⟨-, e, hfail⟩ | ⟨hlow, -⟩
    · exact ⟨e, hone.trans hfail⟩
    · exact absurd hlow (by decide)
  refine ⟨rfl, by decide, by decide, hraw, hrun, ?_⟩
  rintro ⟨blocks, hstaged, -, -⟩
  obtain ⟨e, hfail⟩ := hrun
  rw [hfail] at hstaged
  cases (Prod.mk.inj hstaged).2

end DarksideState

end Lightwalletd
