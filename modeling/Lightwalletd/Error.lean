/-
The errors of the cache, of the node client and of the snapshot code.

They are collected here because they refer to each other across modules the way
the source's error enums do: a snapshot error may carry a cache error or a node
error.  An error the runtime or a third-party crate produces is carried as its
text.
-/
import Lightwalletd.Proto

namespace Lightwalletd

inductive NodeError
  | http (detail : String)
  | rpc (code : Int) (message : String)
  | decode (detail : String)
  | hex (error : FromHexError)
  | responseTooLarge (limit : Nat)
  | emptyResult
  | overloaded (class_ : String)
  | task (detail : String)
  | state (detail : String)
  deriving Repr, DecidableEq

/-- Errors from the block cache.  `overflow` is not one of the source's variants:
it stands for the panic of a height addition past the largest word, which unwinds
out of the call and drops the open transaction. -/
inductive CacheError
  | decode (error : DecodeError)
  | corruption (height : Nat) (detail : String)
  | overflow
  deriving Repr, DecidableEq

/-- Which verification layer rejected an epoch or a block. -/
inductive Check
  | length
  | contentDigest
  | framing
  | chain
  | decode
  | height
  | linkage
  | treeSize
  | anchor
  deriving Repr, DecidableEq

/-- Errors from building, serving or consuming a snapshot. -/
inductive SnapshotError
  | cache (error : CacheError)
  | malformed (detail : String)
  | invalidChain (chain : String)
  | unknownEpoch (index : Nat)
  | malformedDigest (index : Nat)
  | chainMismatch (expected found : String)
  | unsupportedVersion (expected found : Nat)
  | epochSizeMismatch (expected found : Nat)
  | malformedManifest (detail : String)
  | gap (cacheTip : Option Nat) (snapshotBase : Nat)
  | epochRejected (epoch : Nat) (check : Check) (detail : String)
  | blockRejected (epoch height : Nat) (check : Check) (detail : String)
  | http (detail : String)
  | node (error : NodeError)
  | lookupTask (detail : String)
  | nodeLookup (height : Nat) (source : NodeError)
  deriving Repr, DecidableEq

/-! ### Their texts -/

def DecodeError.display (error : DecodeError) : String :=
  s!"failed to decode Protobuf message: {error.description}"

def hexErrorDisplay : FromHexError → String
  | .oddLength => "Odd number of digits"
  | .invalidHexCharacter c index => s!"Invalid character {c.quote} at position {index}"

def NodeError.display : NodeError → String
  | http detail => s!"node HTTP transport error: {detail}"
  | rpc code message => s!"node RPC error {code}: {message}"
  | decode detail => s!"decoding RPC result: {detail}"
  | hex error => s!"decoding hex: {hexErrorDisplay error}"
  | responseTooLarge limit => s!"node response body ran past the {limit}-byte cap"
  | emptyResult => "RPC response had no result"
  | overloaded class_ => s!"the wallet-facing {class_} concurrency limit is full"
  | task detail => s!"node call task failed: {detail}"
  | state detail => s!"read state error: {detail}"

def CacheError.display : CacheError → String
  | decode error => s!"decoding cached block: {error.display}"
  | corruption height detail => s!"cache corruption at height {height}: {detail}"
  | overflow => "attempt to add with overflow"

/-- The name of a verification layer. -/
def Check.display : Check → String
  | length => "length"
  | contentDigest => "content digest"
  | framing => "framing"
  | chain => "chain"
  | decode => "decode"
  | height => "height"
  | linkage => "linkage"
  | treeSize => "tree size"
  | anchor => "anchor"

/-- `Option<u64>` as `Debug` writes it. -/
def debugHeight : Option Nat → String
  | some height => s!"Some({height})"
  | none => "None"

def SnapshotError.display : SnapshotError → String
  | cache error => error.display
  | malformed detail => s!"malformed epoch body: {detail}"
  | invalidChain chain => s!"chain name {chain.quote} cannot be encoded in an epoch header"
  | unknownEpoch index => s!"epoch {index} is not available in this snapshot"
  | malformedDigest index => s!"stored digest for epoch {index} is malformed"
  | chainMismatch expected found =>
      s!"snapshot is for chain {found.quote}, but this node is on {expected.quote}"
  | unsupportedVersion expected found =>
      s!"snapshot format version {found} is not supported (this build speaks {expected})"
  | epochSizeMismatch expected found =>
      s!"snapshot epoch size {found} does not match {expected}"
  | malformedManifest detail => s!"malformed manifest: {detail}"
  | gap cacheTip snapshotBase =>
      s!"snapshot starts at height {snapshotBase}, which would leave a gap above the cached tip " ++
        debugHeight cacheTip
  | epochRejected epoch check detail => s!"epoch {epoch}: {check.display} check failed: {detail}"
  | blockRejected epoch height check detail =>
      s!"epoch {epoch}: {check.display} check failed at height {height}: {detail}"
  | http detail => s!"snapshot HTTP error: {detail}"
  | node error => error.display
  | lookupTask detail => s!"block hash lookup task failed: {detail}"
  | nodeLookup height source => s!"looking up the block hash at height {height}: {source.display}"

end Lightwalletd
