/-
`GetAddressUtxos` and its streaming variant, `collect_utxos` of `src/service/address.rs`.

The node cannot be asked for part of an answer, so that the start height, the client's
bound and the server's are all applied to the whole of it.
-/
import Lightwalletd.Service.Framing

namespace Lightwalletd

/-- Max addresses a single transparent-address request may carry. -/
def maxStreamedAddresses : Nat := 10000

/-- Max unspent outputs a single request may return. -/
def maxAddressUtxos : Nat := 100000

/-- Upper bound on the transparent outputs one block can add to the address index, and so
on the unspent outputs that can share a single height. -/
def maxIndexedOutputsPerBlock : Nat := 2000000 / 32

/-- One entry of `getaddressutxos`. -/
structure AddressUtxo where
  address : String
  txid : String
  outputIndex : Int
  script : String
  satoshis : Nat
  height : Nat
  deriving Repr, DecidableEq

structure GetAddressUtxosArg where
  addresses : List String
  startHeight : Nat
  maxEntries : Nat

def isAsciiAlphanumeric (byte : UInt8) : Bool :=
  (0x30 ≤ byte && byte ≤ 0x39) || (0x41 ≤ byte && byte ≤ 0x5a) || (0x61 ≤ byte && byte ≤ 0x7a)

/-- The transparent-address shape: a `t` and 34 alphanumeric characters. -/
def checkTaddress (address : String) : Except Status Unit :=
  let bytes := address.toUTF8.data.toList
  Except.ensure (bytes.length = 35 ∧ bytes.head? = some 0x74 ∧
      bytes.tail.all isAsciiAlphanumeric = true)
    ⟨.invalidArgument, s!"transparent address {address} contains invalid characters"⟩

def checkUtxoAddresses (addresses : List String) : Except Status Unit := do
  Except.ensure (addresses.length ≤ maxStreamedAddresses) ⟨.resourceExhausted,
    s!"get_address_utxos: too many addresses submitted (limit {maxStreamedAddresses})"⟩
  addresses.forM checkTaddress

/-- The RPC error code of an invalid address. -/
def rpcInvalidAddressOrKey : Int := -5

def addressQueryToStatus (error : NodeError) : Status :=
  match error with
  | .rpc code message =>
      if code = rpcInvalidAddressOrKey then
        if "No information available".toList <:+: message.toList then ⟨.notFound, message⟩
        else ⟨.invalidArgument, s!"invalid transparent address: {message}"⟩
      else error.toStatus
  | _ => error.toStatus

def asI32 (n : Int) : Int := n.bmod (2 ^ 32)

def asI64 (n : Nat) : Int := (n : Int).bmod (2 ^ 64)

/-- Convert an output into the gRPC reply shape. -/
def utxoReply (utxo : AddressUtxo) : Except Status GetAddressUtxosReply := do
  let txid ← (displayHexToWire utxo.txid).mapError fun error =>
    ⟨.internal, s!"decoding utxo txid: {hexErrorDisplay error}"⟩
  let script ← decodeHex utxo.script "utxo script"
  return ⟨utxo.address, txid, asI32 utxo.outputIndex, script, asI64 utxo.satoshis, utxo.height⟩

/-- The loop over the node's answer, with the replies so far. -/
def collectReplies (arg : GetAddressUtxosArg) :
    List GetAddressUtxosReply → List AddressUtxo → Except Status (List GetAddressUtxosReply)
  | replies, [] => .ok replies
  | replies, utxo :: utxos =>
      if utxo.height < arg.startHeight then collectReplies arg replies utxos
      else if arg.maxEntries > 0 ∧ replies.length % 2 ^ 32 ≥ arg.maxEntries then .ok replies
      -- After `maxEntries`, so that a request with a bound of its own within the cap is served.
      else if replies.length ≥ maxAddressUtxos then
        .error ⟨.resourceExhausted, s!"get_address_utxos: more than {maxAddressUtxos} unspent " ++
          "outputs match; raise startHeight or set maxEntries to read them in pages"⟩
      else do
        let reply ← utxoReply utxo
        collectReplies arg (replies ++ [reply]) utxos

/-- The unspent outputs of the addresses, as far as the request asks for them. -/
def collectUtxos (getAddressUtxos : List String → Except NodeError (List AddressUtxo))
    (arg : GetAddressUtxosArg) : Except Status (List GetAddressUtxosReply) := do
  checkUtxoAddresses arg.addresses
  let utxos ← (getAddressUtxos arg.addresses).mapError addressQueryToStatus
  collectReplies arg [] utxos

end Lightwalletd
