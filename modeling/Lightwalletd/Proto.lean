/-
The messages of `proto/compact_formats.proto`, one of `proto/service.proto` that two
parts of the service write, and what is known of the library that writes them.

A field a message does not carry has its zero value, so every field has a
default; `chainMetadata` is a nested message and may be absent altogether.
Heights and sizes are natural numbers: where the width of the machine word shows,
the functions that compute with them say so.

`Prost` stands for the generated protobuf code.  Nothing here depends on how it
lays bytes out, only on the one law a serialization library is used for: decoding
an encoded block gives that block back.
-/
import Lightwalletd.Lib.Bytes

namespace Lightwalletd

/-- The commitment tree sizes as of the end of a block. -/
structure ChainMetadata where
  saplingCommitmentTreeSize : Nat := 0
  orchardCommitmentTreeSize : Nat := 0
  ironwoodCommitmentTreeSize : Nat := 0
  deriving Repr, DecidableEq, Inhabited

structure CompactSaplingSpend where
  nf : Bytes := []
  deriving Repr, DecidableEq, Inhabited

structure CompactSaplingOutput where
  cmu : Bytes := []
  ephemeralKey : Bytes := []
  ciphertext : Bytes := []
  deriving Repr, DecidableEq, Inhabited

/-- An Orchard or an Ironwood action. -/
structure CompactOrchardAction where
  nullifier : Bytes := []
  cmx : Bytes := []
  ephemeralKey : Bytes := []
  ciphertext : Bytes := []
  deriving Repr, DecidableEq, Inhabited

structure CompactTxIn where
  prevoutTxid : Bytes := []
  prevoutIndex : Nat := 0
  deriving Repr, DecidableEq, Inhabited

structure TxOut where
  value : Nat := 0
  scriptPubKey : Bytes := []
  deriving Repr, DecidableEq, Inhabited

structure CompactTx where
  index : Nat := 0
  txid : Bytes := []
  fee : Nat := 0
  spends : List CompactSaplingSpend := []
  outputs : List CompactSaplingOutput := []
  actions : List CompactOrchardAction := []
  vin : List CompactTxIn := []
  vout : List TxOut := []
  ironwoodActions : List CompactOrchardAction := []
  deriving Repr, DecidableEq, Inhabited

/-- A compact block.  `hash` and `prevHash` are in wire byte order. -/
structure CompactBlock where
  height : Nat := 0
  hash : Bytes := []
  prevHash : Bytes := []
  time : Nat := 0
  header : Bytes := []
  vtx : List CompactTx := []
  chainMetadata : Option ChainMetadata := none
  deriving Repr, DecidableEq, Inhabited

/-- An unspent output.  `txid` is in wire byte order. -/
structure GetAddressUtxosReply where
  address : String
  txid : Bytes
  index : Int
  script : Bytes
  valueZat : Int
  height : Nat
  deriving Repr, DecidableEq

/-- The note-commitment trees as of a block. -/
structure TreeState where
  network : String
  height : Nat
  hash : String
  time : Nat
  saplingTree : String
  orchardTree : String
  ironwoodTree : String
  deriving Repr, DecidableEq

/-- The root of a complete subtree. -/
structure SubtreeRoot where
  rootHash : Bytes
  completingBlockHash : Bytes
  completingBlockHeight : Nat
  deriving Repr, DecidableEq

/-- What `prost` reports when bytes are not a message. -/
structure DecodeError where
  description : String
  deriving Repr, DecidableEq

/-- The generated encoder and decoder of `CompactBlock`. -/
class Prost where
  /-- `Message::encode_to_vec`. -/
  encode : CompactBlock → Bytes
  /-- `CompactBlock::decode`. -/
  decode : Bytes → Except DecodeError CompactBlock
  decode_encode : ∀ block, decode (encode block) = .ok block

attribute [simp] Prost.decode_encode

end Lightwalletd
