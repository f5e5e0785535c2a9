/-
A wallet that syncs from the mock chain.

The mock server runs no ingestor and keeps its cache empty, so that every block of a
range is fetched from the mock node and checked like one of a real node.  A presented
chain whose blocks read back passes all of those checks: the fetch of a height gives the
block that the control plane put there, linked to the one below, and the tip is the one
that the node announces.
-/
import Lightwalletd.Darkside.Node
import Lightwalletd.Proofs.Reorg
import Lightwalletd.Proofs.Served
import Lightwalletd.Proofs.Serving

namespace Lightwalletd

namespace DarksideState

section

variable [Librustzcash] [Sha256]

omit [Librustzcash] in
theorem latest_eq {s : DarksideState} {block : ActiveBlock} (hlow : s.startHeight ≤ s.latestHeight)
    (hblock : s.active[s.latestHeight.toNat - s.startHeight]? = some block) :
    getLatestBlock (s.blockchainInfo.mapError (·.toNodeError))
      = .ok ⟨s.latestHeight.toNat, block.hash⟩ := by
  have hplace : (s.latestHeight - s.startHeight).toNat = s.latestHeight.toNat - s.startHeight := by
    omega
  obtain ⟨hlt, -⟩ := List.getElem?_eq_some_iff.mp hblock
  have hindex : s.tipIndex = some (s.latestHeight.toNat - s.startHeight) := by
    unfold tipIndex
    rw [if_neg (by omega), hplace]
    exact if_pos hlt
  have hinfo : s.blockchainInfo = .ok ⟨s.chainName, s.latestHeight.toNat, block.displayHash⟩ := by
    unfold blockchainInfo
    rw [hindex]
    simp only [Option.bind_some, hblock]
  have hwire : displayHexToWire block.displayHash = .ok block.hash :=
    displayHexToWire_wireToDisplayHex _
  unfold getLatestBlock
  simp only [hinfo, Except.mapError, Except.ok_bind, hwire, Except.pure_eq_ok]

private theorem presents_of_applied {s : DarksideState} {targetHeight : Int} (hs : Staged s)
    (h : (s.applyStaged targetHeight).2 = .ok ()) :
    ((s.applyStaged targetHeight).1.startHeight : Int)
      ≤ (s.applyStaged targetHeight).1.latestHeight := by
  obtain ⟨m, -, hstart, hne, htarget, heq⟩ := applyStaged_ok staged_kept.toKeptApplying hs h
  have hpos : 0 < (setPrevhash none m.active).length := by
    rw [setPrevhash_length]
    exact List.length_pos_of_ne_nil hne
  rw [heq]
  show (m.startHeight : Int) ≤ min targetHeight _
  rw [← hstart] at htarget
  omega

variable [LawfulLibrustzcash]

/--
**A wallet can sync from the mock chain.**  After any operations and a successful
application, if the headers have different hashes, what was staged by itself is read to
its end and no block has more transactions than the parser counts: every presented
height is fetched as its active block, `GetLatestBlock` announces the one at the tip,
and every accepted range between the start and the tip is served completely, in order
and linked, past all checks of the fetch and of the stream.
-/
theorem presented_synced [Prost] (ops : List ControlOp) (targetHeight : Int) (s : DarksideState)
    (happlied : (run .new ops).applyStaged targetHeight = (s, .ok ())) (hdistinct : Distinct s)
    (hwhole : ∀ op ∈ ops, Stages Whole op)
    (hcount : ∀ block ∈ s.active, block.txs.length ≤ 0x02000000) :
    ∃ chain : Nat → CompactBlock,
      (∀ height : Nat, s.startHeight ≤ height → (height : Int) ≤ s.latestHeight →
        ∃ block, s.active[height - s.startHeight]? = some block ∧
          compactBlock (s.node height) height = .ok (chain height) ∧
          (chain height).hash = block.hash ∧ (chain height).vtx.length = block.txs.length) ∧
      (∀ height : Nat, s.startHeight ≤ height → (height + 1 : Int) ≤ s.latestHeight →
        Follows (chain height) (chain (height + 1))) ∧
      getLatestBlock (s.blockchainInfo.mapError (·.toNodeError))
        = .ok ⟨s.latestHeight.toNat, (chain s.latestHeight.toNat).hash⟩ ∧
      ∀ (method : String) (transform : List Int → RangeTransform) (streamer : Streamer)
        (range : BlockRange) (start stop fuel : Nat), range.Words → maxBlockRange ≤ fuel →
        s.startHeight ≤ min start stop → (max start stop : Int) ≤ s.latestHeight →
        checkRange streamer (.ok Cache.empty) method range = .ok (start, stop) →
        serveRange method transform streamer (.ok Cache.empty) (fixedEnv Cache.empty s.node) range
            fuel
          = .ok (some ((rangeHeights start stop).map fun height =>
              .ok ((transform range.poolTypes).apply (chain height)))) := by
  have hs : s = ((run .new ops).applyStaged targetHeight).1 := by rw [happlied]
  have hok : ((run .new ops).applyStaged targetHeight).2 = .ok () := by rw [happlied]
  have hstaged := staged_kept.run ops
  have hintact := intact_of_applied hstaged hok
  have hpresents := presents_of_applied hstaged hok
  have htallied := tallied_kept.applyStaged (tallied_kept.run ops) targetHeight
  have hsound := sound_rule.applyStaged (sound_rule.run fun op _ _ _ _ _ => trivial) targetHeight
    (s := run .new ops)
  have hall := whole_rule.applyStaged (whole_rule.run hwhole) targetHeight
  rw [← hs] at hintact hpresents htallied hsound hall
  have hserved : ∀ height : Nat, s.startHeight ≤ height → (height : Int) ≤ s.latestHeight →
      ∃ block, s.active[height - s.startHeight]? = some block ∧ Served s height block := by
    intro height hlow hhigh
    obtain ⟨block, hblock, hiff⟩ := served_iff hsound htallied hintact hdistinct hlow hhigh
    have hmem := List.mem_of_getElem? hblock
    exact ⟨block, hblock, hiff.mpr (Recuts.of_whole (hcount block hmem) (hall.blocks block hmem))⟩
  have : Nonempty ActiveBlock := ⟨⟨[], [], (0, 0, 0)⟩⟩
  choose! blockOf hblock compactOf hcompact hheight hhash hvtx hmeta hprev using hserved
  have hlinked : ∀ height : Nat, s.startHeight ≤ height → (height + 1 : Int) ≤ s.latestHeight →
      Follows (compactOf height) (compactOf (height + 1)) := by
    intro height hlow hhigh
    exact hprev (height + 1) (by omega) (by omega) (by omega) _ (hcompact height hlow (by omega))
  refine ⟨compactOf, fun height hlow hhigh => ⟨blockOf height, hblock height hlow hhigh,
    hcompact height hlow hhigh, hhash height hlow hhigh, hvtx height hlow hhigh⟩, hlinked, ?_, ?_⟩
  · rw [hhash _ (by omega) (by omega)]
    exact latest_eq hpresents (hblock _ (by omega) (by omega))
  · intro method transform streamer range start stop fuel hwords hfuel hfrom hto haccepted
    refine serveRange_whole transform hwords hfuel haccepted
      (fun height hge hlt => hlinked height (by omega) (by omega)) fun height hin => ?_
    obtain ⟨hge, hle⟩ := mem_rangeHeights hin
    refine ⟨.node, ?_⟩
    have hmiss : Cache.empty.blocks.get height = none := rfl
    unfold plainHeight
    rw [hmiss]
    simp only [hcompact height (by omega) (by omega)]

end

/-- A block with a transaction mined into it, and one above: asked for from the top. -/
theorem minedChain_synced :
    ∃ (s : DarksideState) (chain : Nat → CompactBlock),
      (run .new (minedChain.take 4)).applyStaged 2 = (s, .ok ()) ∧
      (chain 1).vtx.length = 2 ∧ Follows (chain 1) (chain 2) ∧
      getLatestBlock (s.blockchainInfo.mapError (·.toNodeError)) = .ok ⟨2, (chain 2).hash⟩ ∧
      serveRange "get_block_range" rangePools ⟨false, none⟩ (.ok Cache.empty)
          (fixedEnv Cache.empty s.node) ⟨some ⟨2, []⟩, some ⟨1, []⟩, []⟩ maxBlockRange
        = .ok (some ((rangeHeights 2 1).map fun height =>
            .ok ((rangePools []).apply (chain height)))) := by
  have hresult : ((run .new (minedChain.take 4)).applyStaged 2).2 = .ok () := by decide +kernel
  have hstate : ((run .new (minedChain.take 4)).applyStaged 2).1.startHeight = 1 ∧
      ((run .new (minedChain.take 4)).applyStaged 2).1.latestHeight = 2 := by decide +kernel
  have htxs : ((run .new (minedChain.take 4)).applyStaged 2).1.active.map (·.txs.length)
      = [2, 1] := by decide +kernel
  have hdistinct : Distinct ((run .new (minedChain.take 4)).applyStaged 2).1 := by
    unfold Distinct
    decide +kernel
  have hstages : ∀ op ∈ minedChain.take 4, Stages Whole op := by
    intro op hop height raw heq _
    rw [heq] at hop
    simp only [minedChain, List.take_succ_cons, List.take_zero, List.mem_cons, List.not_mem_nil,
      ControlOp.stageTransaction.injEq, reduceCtorEq, false_or, or_false] at hop
    rw [hop.2]
    exact ⟨_, rfl⟩
  revert hresult hstate htxs hdistinct
  rcases happlied : (run .new (minedChain.take 4)).applyStaged 2 with ⟨s, result⟩
  intro hresult hstate htxs hdistinct
  dsimp only at hresult hstate htxs hdistinct
  obtain ⟨hstart, hlatest⟩ := hstate
  rw [hresult] at happlied
  have hcount : ∀ block ∈ s.active, block.txs.length ≤ 0x02000000 := by
    intro block hblock
    have hmem : block.txs.length ∈ s.active.map (·.txs.length) := List.mem_map_of_mem hblock
    rw [htxs] at hmem
    simp only [List.mem_cons, List.not_mem_nil, or_false] at hmem
    omega
  obtain ⟨chain, hfetch, hlinked, htip, hserved⟩ := presented_synced (minedChain.take 4) 2 s
    happlied hdistinct hstages hcount
  obtain ⟨block, hblock, -, -, hlength⟩ := hfetch 1 (by omega) (by omega)
  have hget : (s.active.map (·.txs.length))[0]? = some 2 := by rw [htxs]; rfl
  rw [hstart, Nat.sub_self] at hblock
  rw [List.getElem?_map, hblock] at hget
  rw [hlatest] at htip
  refine ⟨s, chain, by rw [hresult], ?_, hlinked 1 (by omega) (by omega), htip, ?_⟩
  · rw [hlength]
    exact Option.some.inj hget
  · refine hserved "get_block_range" rangePools ⟨false, none⟩ ⟨some ⟨2, []⟩, some ⟨1, []⟩, []⟩ 2 1
      maxBlockRange (BlockRange.words_of_le (by decide) (by decide)) (Nat.le_refl _) ?_ ?_ rfl
    · omega
    · omega

end DarksideState

end Lightwalletd
