/-
The two block parsers of `src/compact.rs` with their indexing written out.

Both walk the block with positions into it: a slice, an index or a sum of positions
that goes out of range is a panic, not an error.  These are the same functions as
`toCompactBlock` and `splitBlock`, with every such operation a checked one and in the
order the source runs them, so that panicking is something they can do.
-/
import Lightwalletd.Compact
import Lightwalletd.Lib.Checked

namespace Lightwalletd

open Checked

/-! ### Transactions -/

def coinbaseHeightIndexed (tx : Transaction) : Checked ParseError Nat :=
  match tx.transparentBundle.bind (·.vin.head?) with
  | none => lift (.error .noHeight)
  | some input =>
      match input.scriptSig.head? with
      | none => lift (.error .noHeight)
      | some first => do
          let height ←
            if first = 0x00 then lift (.ok 0)
            else if 0x51 ≤ first ∧ first ≤ 0x60 then sub first.toNat 0x50
            else if first.toNat > 8 ∨ input.scriptSig.length < 1 + first.toNat then
              lift (.error .noHeight)
            else do
              let bytes : Bytes := List.replicate 8 0
              let _ ← slice bytes 0 first.toNat
              let pushed ← slice input.scriptSig 1 (1 + first.toNat)
              lift (.ok (ofLeBytes (pushed ++ bytes.drop first.toNat)))
          return if height = genesisTargetDifficulty then 0 else height

def SaplingOutput.compactIndexed (output : SaplingOutput) :
    Checked ParseError CompactSaplingOutput := do
  let ciphertext ← slice output.encCiphertext 0 compactCiphertextLen
  return { cmu := output.cmu, ephemeralKey := output.ephemeralKey, ciphertext := ciphertext }

def ShieldedAction.compactIndexed (action : ShieldedAction) :
    Checked ParseError CompactOrchardAction := do
  let ciphertext ← slice action.encCiphertext 0 compactCiphertextLen
  return {
    nullifier := action.nullifier
    cmx := action.cmx
    ephemeralKey := action.epkBytes
    ciphertext := ciphertext }

def toCompactTxIndexed (index : Nat) (tx : Transaction) (isCoinbase : Bool) :
    Checked ParseError CompactTx := do
  let outputs ← ((tx.saplingBundle.map (·.shieldedOutputs)).getD []).mapM (·.compactIndexed)
  let actions ← (tx.orchardBundle.getD []).mapM (·.compactIndexed)
  let ironwoodActions ← (tx.ironwoodBundle.getD []).mapM (·.compactIndexed)
  return {
    index := index
    txid := tx.txid
    fee := 0
    spends := ((tx.saplingBundle.map (·.shieldedSpends)).getD []).map fun nf => { nf := nf }
    outputs := outputs
    actions := actions
    ironwoodActions := ironwoodActions
    vin :=
      if isCoinbase then []
      else ((tx.transparentBundle.map (·.vin)).getD []).map fun input =>
        { prevoutTxid := input.prevoutHash, prevoutIndex := input.prevoutIndex }
    vout := (tx.transparentBundle.map (·.vout)).getD [] }

/-! ### Blocks -/

section

variable [Librustzcash]

/-- Where the header ends, with the slice and the sum of positions. -/
def headerEndIndexed (raw : Bytes) : Checked ParseError Nat := do
  lift (Except.ensure (headerPrefixLen ≤ raw.length) .truncated)
  let solution ← slice raw headerPrefixLen raw.length
  let (solutionLen, rest) ← lift ((Librustzcash.readCompactSize solution).mapError .io)
  let afterLength ← add headerPrefixLen (solution.length - rest.length)
  let stop ← add afterLength solutionLen
  lift (Except.ensure (stop ≤ raw.length) .truncated)
  return stop

/-- The loop of `to_compact_block`. -/
def readVtxIndexed : Nat → Nat → Option Nat → Bytes →
    Checked ParseError (List CompactTx × Option Nat × Bytes)
  | 0, _, height, rest => lift (.ok ([], height, rest))
  | count + 1, index, height, rest => do
      let (tx, rest) ← lift ((Librustzcash.readTransaction rest).mapError .io)
      let height ← if index = 0 then some <$> coinbaseHeightIndexed tx else lift (.ok height)
      let compact ← toCompactTxIndexed index tx (index = 0)
      let (vtx, height, rest) ← readVtxIndexed count (index + 1) height rest
      return (compact :: vtx, height, rest)

/-- The loop of `split_block`: the cursor runs over `tail`, the part of the block from
`stop` on. -/
def splitTxsIndexed (raw : Bytes) (stop : Nat) (tail : Bytes) :
    Nat → Bytes → Checked ParseError (List Bytes × Bytes)
  | 0, rest => lift (.ok ([], rest))
  | count + 1, bytes => do
      let (_, rest) ← lift ((Librustzcash.readTransaction bytes).mapError .io)
      let low ← add stop (tail.length - bytes.length)
      let high ← add stop (tail.length - rest.length)
      let tx ← slice raw low high
      let (txs, last) ← splitTxsIndexed raw stop tail count rest
      return (tx :: txs, last)

def splitBlockIndexed (raw : Bytes) : Checked ParseError (Bytes × List Bytes) := do
  let stop ← headerEndIndexed raw
  let header ← slice raw 0 stop
  let tail ← slice raw stop raw.length
  let (txCount, rest) ← lift ((Librustzcash.readCompactSize tail).mapError .io)
  let (txs, rest) ← splitTxsIndexed raw stop tail txCount rest
  let position ← add stop (tail.length - rest.length)
  lift (Except.ensure (position = raw.length) .trailingData)
  return (header, txs)

variable [Sha256]

def toCompactBlockIndexed (raw : Bytes) : Checked ParseError CompactBlock := do
  lift (Except.ensure (headerPrefixLen ≤ raw.length) .truncated)
  let prevHash ← slice raw 4 36
  let time0 ← index raw 100
  let time1 ← index raw 101
  let time2 ← index raw 102
  let time3 ← index raw 103
  let stop ← headerEndIndexed raw
  let header ← slice raw 0 stop
  let tail ← slice raw stop raw.length
  let (txCount, rest) ← lift ((Librustzcash.readCompactSize tail).mapError .io)
  let (vtx, height, rest) ← readVtxIndexed txCount 0 none rest
  let position ← add stop (tail.length - rest.length)
  lift (Except.ensure (position = raw.length) .trailingData)
  match height with
  | none => lift (.error .noHeight)
  | some height => lift (.ok {
      height := height
      hash := sha256d header
      prevHash := prevHash
      time := ofLeBytes [time0, time1, time2, time3]
      header := []
      vtx := vtx
      chainMetadata := some {} })

end

end Lightwalletd
