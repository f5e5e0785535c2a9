/-
Fetching a block from the node, `src/fetch.rs`, with the byte-order conversions
of `src/encoding.rs` it uses.

A fetch is two RPCs and a parse.  `BlockReplies` is how the node and the parse
task answered one of them, so an adversarial node is any choice of replies;
`BlockParser` is the conversion of `src/compact.rs`, of which nothing is assumed
here.  What `compactBlock` itself guarantees, whatever the node answers, is at the
end.
-/
import Lightwalletd.Error
import Lightwalletd.Lib.Result

namespace Lightwalletd

/-! ### Byte order -/

/-- Decode a display-order hex hash or txid into wire bytes. -/
def displayHexToWire (hex : String) : Except FromHexError Bytes :=
  (hexDecode hex).map List.reverse

/-- Encode wire bytes into display-order hex. -/
def wireToDisplayHex (bytes : Bytes) : String := hexEncode bytes.reverse

/-! ### What the node answers -/

/-- The verbose `getblock`, with the sizes of the three commitment trees. -/
structure GetBlockVerbose where
  hash : String
  tx : List String
  saplingSize : Nat
  orchardSize : Nat
  ironwoodSize : Nat

/-- The fields of `getblockchaininfo` the cache code reads. -/
structure GetBlockchainInfo where
  chain : String
  blocks : Nat
  bestblockhash : String

inductive ParseError
  | truncated
  | io (detail : String)
  | noHeight
  | trailingData
  deriving Repr, DecidableEq

def ParseError.display : ParseError → String
  | truncated => "block data is truncated"
  | io detail => s!"reading block: {detail}"
  | noHeight => "could not read height from coinbase"
  | trailingData => "block has trailing data after the last transaction"

/-- `compact::to_compact_block`. -/
class BlockParser where
  toCompactBlock : Bytes → Except ParseError CompactBlock

inductive FetchError
  | node (error : NodeError)
  | parse (error : ParseError)
  | unexpectedHeight (requested got : Nat)
  | hashMismatch (requested computed : String)
  | txidMismatch (height index : Nat) (node computed : String)
  | txCountMismatch (height node computed : Nat)
  | parseTask (detail : String)
  | windowClosed (detail : String)
  deriving Repr, DecidableEq

/-- The answers one fetch gets: the verbose block, the raw block under a hash, and
how the blocking parse task failed, if it did. -/
structure BlockReplies where
  verbose : Except NodeError GetBlockVerbose
  raw : String → Except NodeError Bytes
  parseTask : Option String

/-- Compare the computed txids with the node's list, position by position. -/
def checkTxids (height : Nat) : Nat → List CompactTx → List String → Except FetchError Unit
  | index, tx :: vtx, nodeTxid :: txids =>
      let computed := wireToDisplayHex tx.txid
      if computed ≠ nodeTxid then .error (.txidMismatch height index nodeTxid computed)
      else checkTxids height (index + 1) vtx txids
  | _, _, _ => .ok ()

/-- The node's txid list, if it gave one, agrees with the parsed block. -/
def checkTxList (height : Nat) (block : CompactBlock) (txids : List String) :
    Except FetchError Unit :=
  if txids = [] then .ok ()
  else do
    Except.ensure (txids.length = block.vtx.length)
      (.txCountMismatch height txids.length block.vtx.length)
    checkTxids height 0 block.vtx txids

/-- Run the blocking parse of the raw bytes. -/
def parseRaw [BlockParser] (replies : BlockReplies) (raw : Bytes) :
    Except FetchError CompactBlock :=
  match replies.parseTask with
  | some detail => .error (.parseTask detail)
  | none => (BlockParser.toCompactBlock raw).mapError .parse

/-- Fetch the block at `height` and build its compact form, with the tree sizes the
node reports. -/
def compactBlock [BlockParser] (replies : BlockReplies) (height : Nat) :
    Except FetchError CompactBlock := do
  let verbose ← replies.verbose.mapError .node
  let raw ← (replies.raw verbose.hash).mapError .node
  let block ← parseRaw replies raw
  Except.ensure (block.height = height) (.unexpectedHeight height block.height)
  let computedHash := wireToDisplayHex block.hash
  Except.ensure (computedHash = verbose.hash) (.hashMismatch verbose.hash computedHash)
  checkTxList height block verbose.tx
  return { block with
    chainMetadata := block.chainMetadata.map fun _ => {
      saplingCommitmentTreeSize := verbose.saplingSize
      orchardCommitmentTreeSize := verbose.orchardSize
      ironwoodCommitmentTreeSize := verbose.ironwoodSize } }

/-! ### What a fetch guarantees -/

theorem displayHexToWire_eq_ok {hex : String} {wire : Bytes} :
    displayHexToWire hex = .ok wire ↔ ∃ bytes, hexDecode hex = .ok bytes ∧
      wire = bytes.reverse := by
  unfold displayHexToWire
  rw [Except.map_eq_ok]
  exact exists_congr fun bytes => and_congr_right' eq_comm

theorem displayHexToWire_wireToDisplayHex (bytes : Bytes) :
    displayHexToWire (wireToDisplayHex bytes) = .ok bytes := by
  rw [displayHexToWire, wireToDisplayHex, hexDecode_hexEncode]
  simp [Except.map]

/-- Display order tells hashes apart. -/
theorem wireToDisplayHex_inj {a b : Bytes}
    (h : wireToDisplayHex a = wireToDisplayHex b) : a = b := by
  have ha := displayHexToWire_wireToDisplayHex a
  rw [h, displayHexToWire_wireToDisplayHex] at ha
  exact (Except.ok.inj ha).symm

/-- **A fetched block has the height it was asked for.** -/
theorem compactBlock_height [BlockParser] {replies : BlockReplies} {height : Nat}
    {block : CompactBlock} (h : compactBlock replies height = .ok block) :
    block.height = height := by
  unfold compactBlock at h
  simp only [Except.bind_eq_ok, Except.ensure_eq_ok, Except.pure_eq_ok] at h
  obtain ⟨verbose, -, raw, -, parsed, -, -, hheight, -, -, -, -, rfl⟩ := h
  exact hheight

end Lightwalletd
