/-
Raw-block helpers of the mock chain, `src/darkside/block.rs`, with the error type of
`src/darkside/error.rs`.

A block of the mock chain is held split, so that it can be laid out again after its
header or its transactions have been changed.
-/
import Lightwalletd.Compact

namespace Lightwalletd

/-! ### Errors -/

/-- Errors from mutating or reading the mock chain. -/
inductive DarksideError
  | notReset
  | invalid (detail : String)
  | parse (error : ParseError)
  | hex (error : FromHexError)
  deriving Repr, DecidableEq

def DarksideError.text : DarksideError → String
  | notReset => "please call Reset first"
  | invalid detail => detail
  | parse error => error.display
  | hex error => s!"decoding hex: {hexErrorDisplay error}"

/-- What the node answers in place of an error of the mock chain. -/
def DarksideError.toNodeError (error : DarksideError) : NodeError := .rpc (-1) error.text

/-! ### Blocks of the mock chain -/

/-- The sizes of the Sapling, Orchard and Ironwood commitment trees. -/
abbrev TreeSizes := UInt32 × UInt32 × UInt32

/-- One block presented by the mock chain. -/
structure ActiveBlock where
  header : Bytes
  txs : List Bytes
  sizes : TreeSizes
  deriving Repr, DecidableEq

namespace ActiveBlock

/-- Lay the block out again. -/
def toRaw (block : ActiveBlock) : Bytes :=
  block.header ++ writeCompactSize block.txs.length ++ block.txs.flatten

variable [Sha256]

def hash (block : ActiveBlock) : Bytes := sha256d block.header

def displayHash (block : ActiveBlock) : String := wireToDisplayHex block.hash

end ActiveBlock

/-- Write header bytes `4..36`. -/
def writePrevHash (header hash : Bytes) : Bytes := header.take 4 ++ hash ++ header.drop 36

/-- Rewrite the link of every block that has one before it; the first keeps its own. -/
def setPrevhash [Sha256] : Option Bytes → List ActiveBlock → List ActiveBlock
  | _, [] => []
  | prevHash, block :: rest =>
      let block := match prevHash with
        | some hash => { block with header := writePrevHash block.header hash }
        | none => block
      block :: setPrevhash (some (sha256d block.header)) rest

section

variable [Librustzcash]

/-- Read the height from a raw block's coinbase. -/
def rawBlockHeight (raw : Bytes) : Except DarksideError Nat := do
  let (_, txs) ← (splitBlock raw).mapError .parse
  match txs with
  | [] => .error (.invalid "block has no transactions")
  | coinbase :: _ => (coinbaseHeightFromRaw coinbase).mapError .parse

end

/-! ### Synthetic blocks -/

/-- The coinbase of block 797905 up to the bytes of its height. -/
def fakeCoinbaseHead : String :=
  "0400008085202f890100000000000000000000000000000000000000000000000000" ++
  "00000000000000ffffffff2a03"

/-- The same coinbase from after them on. -/
def fakeCoinbaseTail : String :=
  "043855975e464b8896790758f824ceac97836" ++
  "22c17ed38f1669b8a45ce1da857dbbe7950e2ffffffff02a0ebce1d000000001976a914" ++
  "7ed15946ec14ae0cd8fa8991eb6084452eb3f77c88ac405973070000000017a914e445cf" ++
  "a944b6f2bdacefbda904a81d5fdd26d77f8700000000000000000000000000000000000000"

/-- A signed 32-bit word as an unsigned one. -/
def asU32 (n : Int) : Nat := (n % 2 ^ 32).toNat

def wrapI32 (n : Int) : Int := (n + 2 ^ 31) % 2 ^ 32 - 2 ^ 31

/-- Build a synthetic empty block: a single fake coinbase carrying `height`. -/
def syntheticBlock [Sha256] (height nonce : Int) : Except DarksideError Bytes := do
  let merkleRoot := Sha256.digest (chainBytes s!"{nonce}#{height}")
  let header := leBytes 4 4 ++ List.replicate 32 0 ++ merkleRoot ++ List.replicate 32 0
    ++ leBytes 4 1 ++ List.replicate 4 0 ++ List.replicate 32 0 ++ writeCompactSize 1344
    ++ List.replicate 1344 0
  let heightLe := hexEncode (leBytes 4 (asU32 height))
  let coinbase ← (hexDecode (fakeCoinbaseHead ++ heightLe ++ fakeCoinbaseTail)).mapError .hex
  return header ++ [1] ++ coinbase

end Lightwalletd
