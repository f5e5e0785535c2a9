/-
Raw blocks and transactions to compact ones, `src/compact.rs`.

A block is a header, the number of its transactions and the transactions.  The
header has a fixed layout up to the solution; a transaction is parsed by the
library, which also computes its txid.  `Librustzcash` is that library, of which
the definitions assume nothing: `Transaction` is what the conversion asks a parsed
transaction for, and a cursor is the bytes that are left to read.  What the library
documents is at the end, for the results that rest on it.
-/
import Lightwalletd.Fetch
import Lightwalletd.Lib.Reader
import Lightwalletd.Snapshot.Format

namespace Lightwalletd

/-! ### A parsed transaction -/

structure TransparentInput where
  prevoutHash : Bytes
  prevoutIndex : Nat
  scriptSig : Bytes

structure TransparentBundle where
  vin : List TransparentInput
  vout : List TxOut

structure SaplingOutput where
  cmu : Bytes
  ephemeralKey : Bytes
  encCiphertext : Bytes

structure SaplingBundle where
  /-- The nullifiers of the spends. -/
  shieldedSpends : List Bytes
  shieldedOutputs : List SaplingOutput

/-- An action of an Orchard or an Ironwood bundle. -/
structure ShieldedAction where
  nullifier : Bytes
  cmx : Bytes
  epkBytes : Bytes
  encCiphertext : Bytes

structure Transaction where
  txid : Bytes
  transparentBundle : Option TransparentBundle
  saplingBundle : Option SaplingBundle
  orchardBundle : Option (List ShieldedAction)
  ironwoodBundle : Option (List ShieldedAction)

/-- The library, each call with what its cursor has left. -/
class Librustzcash where
  /-- `Transaction::read`, on the branch the source always passes. -/
  readTransaction : Bytes → Except String (Transaction × Bytes)
  /-- `CompactSize::read`. -/
  readCompactSize : Bytes → Except String (Nat × Bytes)

/-! ### Compact transactions -/

/-- First bytes of a note's ciphertext: the compact note plaintext. -/
def compactCiphertextLen : Nat := 52

/-- The value the genesis coinbase pushes in place of a height. -/
def genesisTargetDifficulty : Nat := 520617983

/-- Read the block height from the coinbase's script: a small-integer opcode, or a
length and as many little-endian bytes. -/
def coinbaseHeight (tx : Transaction) : Except ParseError Nat := do
  match tx.transparentBundle.bind (·.vin.head?) with
  | none => .error .noHeight
  | some input =>
      match input.scriptSig with
      | [] => .error .noHeight
      | first :: script =>
          let height ←
            if first = 0x00 then .ok 0
            else if 0x51 ≤ first ∧ first ≤ 0x60 then .ok (first.toNat - 0x50)
            else if first.toNat > 8 ∨ script.length < first.toNat then .error .noHeight
            else .ok (ofLeBytes (script.take first.toNat))
          return if height = genesisTargetDifficulty then 0 else height

def ShieldedAction.compact (action : ShieldedAction) : CompactOrchardAction where
  nullifier := action.nullifier
  cmx := action.cmx
  ephemeralKey := action.epkBytes
  ciphertext := action.encCiphertext.take compactCiphertextLen

/-- Build the compact form of a single transaction.  A coinbase omits its inputs. -/
def toCompactTx (index : Nat) (tx : Transaction) (isCoinbase : Bool) : CompactTx where
  index := index
  txid := tx.txid
  fee := 0
  spends := ((tx.saplingBundle.map (·.shieldedSpends)).getD []).map fun nf => { nf := nf }
  outputs := ((tx.saplingBundle.map (·.shieldedOutputs)).getD []).map fun output =>
    { cmu := output.cmu
      ephemeralKey := output.ephemeralKey
      ciphertext := output.encCiphertext.take compactCiphertextLen }
  actions := (tx.orchardBundle.getD []).map (·.compact)
  ironwoodActions := (tx.ironwoodBundle.getD []).map (·.compact)
  vin :=
    if isCoinbase then []
    else ((tx.transparentBundle.map (·.vin)).getD []).map fun input =>
      { prevoutTxid := input.prevoutHash, prevoutIndex := input.prevoutIndex }
  vout := (tx.transparentBundle.map (·.vout)).getD []

section

variable [Librustzcash]

/-- Parse a single raw transaction into its compact form. -/
def compactTxFromRaw (index : Nat) (raw : Bytes) : Except ParseError CompactTx := do
  let (transaction, _) ← (Librustzcash.readTransaction raw).mapError .io
  return toCompactTx index transaction false

/-! ### Raw blocks -/

/-- The canonical `CompactSize` encoding of `value`. -/
def writeCompactSize (value : Nat) : Bytes :=
  if value < 253 then [UInt8.ofNat value]
  else if value ≤ 0xffff then 253 :: leBytes 2 value
  else if value ≤ 0xffffffff then 254 :: leBytes 4 value
  else 255 :: leBytes 8 value

/-- Header layout up to the solution. -/
def headerPrefixLen : Nat := 140

/-- Where the header ends: after the solution, whose length prefix follows the fixed
part. -/
def headerEnd (raw : Bytes) : Except ParseError Nat := do
  Except.ensure (headerPrefixLen ≤ raw.length) .truncated
  let solution := raw.drop headerPrefixLen
  let (solutionLen, rest) ← (Librustzcash.readCompactSize solution).mapError .io
  let position := solution.length - rest.length
  Except.ensure (headerPrefixLen + position + solutionLen ≤ raw.length) .truncated
  return headerPrefixLen + position + solutionLen

/-- The loop over the `count` transactions from `index` on; the first of the block has
its height. -/
def readVtx : Nat → Nat → Option Nat → Bytes →
    Except ParseError (List CompactTx × Option Nat × Bytes)
  | 0, _, height, rest => .ok ([], height, rest)
  | count + 1, index, height, rest => do
      let (tx, rest) ← (Librustzcash.readTransaction rest).mapError .io
      let height ← if index = 0 then (coinbaseHeight tx).map some else .ok height
      let (vtx, height, rest) ← readVtx count (index + 1) height rest
      return (toCompactTx index tx (index = 0) :: vtx, height, rest)

/-- The loop of `splitBlock`: the bytes of each of the next `count` transactions. -/
def splitTxs : Nat → Bytes → Except ParseError (List Bytes × Bytes)
  | 0, rest => .ok ([], rest)
  | count + 1, bytes => do
      let (_, rest) ← (Librustzcash.readTransaction bytes).mapError .io
      let (txs, last) ← splitTxs count rest
      return (bytes.take (bytes.length - rest.length) :: txs, last)

/-- Split a raw block into its header bytes and the raw bytes of each transaction. -/
def splitBlock (raw : Bytes) : Except ParseError (Bytes × List Bytes) := do
  let stop ← headerEnd raw
  let (txCount, rest) ← (Librustzcash.readCompactSize (raw.drop stop)).mapError .io
  let (txs, rest) ← splitTxs txCount rest
  Except.ensure (rest = []) .trailingData
  return (raw.take stop, txs)

/-- Read the block height from a raw coinbase transaction. -/
def coinbaseHeightFromRaw (raw : Bytes) : Except ParseError Nat := do
  let (transaction, _) ← (Librustzcash.readTransaction raw).mapError .io
  coinbaseHeight transaction

/-- Count the Sapling outputs and the Orchard and Ironwood actions of a raw
transaction, as 32-bit words. -/
def shieldedCounts (raw : Bytes) : Except ParseError (UInt32 × UInt32 × UInt32) := do
  let (transaction, _) ← (Librustzcash.readTransaction raw).mapError .io
  return (UInt32.ofNat ((transaction.saplingBundle.map (·.shieldedOutputs.length)).getD 0),
    UInt32.ofNat ((transaction.orchardBundle.map (·.length)).getD 0),
    UInt32.ofNat ((transaction.ironwoodBundle.map (·.length)).getD 0))

/-- The display-order txid of a raw transaction. -/
def txidDisplay (raw : Bytes) : Except ParseError String := do
  let (transaction, _) ← (Librustzcash.readTransaction raw).mapError .io
  return wireToDisplayHex transaction.txid

variable [Sha256]

/-- Double SHA-256, in wire byte order: the block hash. -/
def sha256d (data : Bytes) : Bytes := Sha256.digest (Sha256.digest data)

/-- Parse a raw block and build its compact form, with the tree sizes left at zero. -/
def toCompactBlock (raw : Bytes) : Except ParseError CompactBlock := do
  let stop ← headerEnd raw
  let (txCount, rest) ← (Librustzcash.readCompactSize (raw.drop stop)).mapError .io
  let (vtx, height, rest) ← readVtx txCount 0 none rest
  Except.ensure (rest = []) .trailingData
  match height with
  | none => .error .noHeight
  | some height => .ok {
      height := height
      hash := sha256d (raw.take stop)
      prevHash := (raw.drop 4).take 32
      time := ofLeBytes ((raw.drop 100).take 4)
      header := []
      vtx := vtx
      chainMetadata := some {} }

instance compact : BlockParser where
  toCompactBlock := toCompactBlock

end

/-! ### What the library documents -/

/-- The note ciphertexts of a bundle are arrays of 580 bytes. -/
structure Transaction.Ciphertexts (tx : Transaction) : Prop where
  sapling : ∀ bundle ∈ tx.saplingBundle, ∀ output ∈ bundle.shieldedOutputs,
    output.encCiphertext.length = 580
  orchard : ∀ actions ∈ tx.orchardBundle, ∀ action ∈ actions, action.encCiphertext.length = 580
  ironwood : ∀ actions ∈ tx.ironwoodBundle, ∀ action ∈ actions, action.encCiphertext.length = 580

/-- The library's own contract: a `CompactSize` is read in its canonical encoding and
up to the largest message only, and a transaction is read off a prefix and depends on
nothing else. -/
class LawfulLibrustzcash [Librustzcash] : Prop where
  compactSize : ∀ bytes n rest, Librustzcash.readCompactSize bytes = .ok (n, rest) ↔
    n ≤ 0x02000000 ∧ bytes = writeCompactSize n ++ rest
  transaction : Consumes Librustzcash.readTransaction
  ciphertexts : ∀ bytes tx rest, Librustzcash.readTransaction bytes = .ok (tx, rest) →
    tx.Ciphertexts

end Lightwalletd
