/-
Consuming a snapshot, `src/snapshot/import.rs`: fetch epochs from a source, verify
them against the node, and append them to the cache.

An import awaits the peer and the node, and can be dropped at each await.
`ImportEnv` is how one run's awaits turn out, so a hostile peer is any choice of
manifest and bodies, and an interrupted run is one in which some await never comes
back.  Requests for a body and lookups are numbered by the place of their epoch in
the manifest, since a run makes each of them once.

Nothing but `importEpoch`'s append writes to the cache.
-/
import Lightwalletd.Cache
import Lightwalletd.Snapshot.Lookup

namespace Lightwalletd

/-- Largest epoch body this build will hold. -/
def maxEpochBytes : Nat := 2 * 1024 * 1024 * 1024

/-- How an awaited call came back, if the future was not dropped before it did. -/
inductive Await (α : Type)
  | ready (answer : α)
  | dropped

/-- What one run of an import gets to see. -/
structure ImportEnv where
  /-- `EpochSource::manifest`. -/
  manifest : Await (Except SnapshotError Manifest)
  /-- `NodeRpc::get_blockchain_info`. -/
  blockchainInfo : Await (Except NodeError GetBlockchainInfo)
  /-- `EpochSource::epoch`, by request, index and largest body accepted. -/
  epoch : Nat → Nat → Nat → Await (Except SnapshotError Bytes)
  /-- The node's answers to the lookup of an epoch. -/
  lookup : Nat → Await LookupEnv

/-- How a run of an import ended. -/
inductive ImportEnd
  | returned (result : Except SnapshotError (Option Nat))
  | dropped

/-! ### The manifest -/

/-- The checks of one manifest entry against the one before it.  The index of the
entry before wraps around at the largest word, as it does in a release build. -/
def checkEntry (baseHeight : Nat) (previous : Option EpochEntry) (entry : EpochEntry) :
    Except SnapshotError Unit :=
  if entry.start > entry.stop ∨ entry.stop ≠ epochLastHeight entry.index then
    .error (.malformedManifest
      s!"epoch {entry.index} declares [{entry.start}, {entry.stop}], which is not the range of that index")
  else
    match previous with
    | none =>
        if entry.start < epochFirstHeight entry.index ∨ baseHeight ≠ entry.start then
          .error (.malformedManifest
            s!"first epoch starts at {entry.start} but the manifest advertises base {baseHeight}")
        else .ok ()
    | some previous =>
        if entry.index ≠ (previous.index + 1) % 2 ^ 64
            ∨ entry.start ≠ epochFirstHeight entry.index then
          .error (.malformedManifest
            s!"epoch {entry.index} does not continue epoch {previous.index}")
        else .ok ()

/-- The loop of `validateManifest` over the entries. -/
def checkEntries (baseHeight : Nat) :
    Option EpochEntry → List EpochEntry → Except SnapshotError Unit
  | _, [] => .ok ()
  | previous, entry :: entries => do
      checkEntry baseHeight previous entry
      checkEntries baseHeight (some entry) entries

/-- Reject a manifest that cannot describe blocks this instance could use. -/
def validateManifest (manifest : Manifest) (chain : String) : Except SnapshotError Unit := do
  Except.ensure (manifest.formatVersion = formatVersion)
    (.unsupportedVersion formatVersion manifest.formatVersion)
  Except.ensure (manifest.epochSize = epochSize) (.epochSizeMismatch epochSize manifest.epochSize)
  Except.ensure (manifest.chain = chain) (.chainMismatch chain manifest.chain)
  checkEntries manifest.baseHeight none manifest.epochs

/-! ### The layers

A body passes through them in turn, and each has its own name in the error it fails
with.
-/

/-- Check a body against the length the manifest declares for it. -/
def checkLength (entry : EpochEntry) (body : Bytes) : Except SnapshotError Unit :=
  Except.ensure (body.length = entry.bytes) (.epochRejected entry.index .length
    s!"body is {body.length} bytes, manifest declares {entry.bytes}")

/-- Decode one record, holding it to the height its position in the epoch implies. -/
def decodeBlock [Prost] (epoch height : Nat) (record : Bytes) :
    Except SnapshotError CompactBlock :=
  match Prost.decode record with
  | .error error => .error (.blockRejected epoch height .decode error.display)
  | .ok block =>
      if block.height ≠ height then
        .error (.blockRejected epoch height .height s!"block claims height {block.height}")
      else .ok block

/-- `later` must name `earlier` as its predecessor. -/
def checkLinkage (epoch : Nat) (earlier later : CompactBlock) : Except SnapshotError Unit :=
  let named := wireToDisplayHex later.prevHash
  let hash := wireToDisplayHex earlier.hash
  Except.ensure (later.prevHash = earlier.hash) (.blockRejected epoch later.height .linkage
    s!"prevHash {named} does not match the hash of block {earlier.height}, which is {hash}")

/-- What a block adds to a pool's tree. -/
def CompactBlock.carried (block : CompactBlock) (count : CompactTx → Nat) : Nat :=
  (block.vtx.map count).sum

/-- One pool's tree must grow by exactly what the block carries. -/
def checkPool (epoch height : Nat) (pool : String) (before after carried : Nat) :
    Except SnapshotError Unit :=
  if after < before then
    .error (.blockRejected epoch height .treeSize s!"{pool} tree shrank from {before} to {after}")
  else if after - before ≠ carried then
    let grew := after - before
    .error (.blockRejected epoch height .treeSize
      s!"{pool} tree grew by {grew} but the block carries {carried}")
  else .ok ()

/-- Each pool's cumulative tree size must grow by exactly what `later` adds to it. -/
def checkTreeSizes (epoch : Nat) (earlier later : CompactBlock) : Except SnapshotError Unit :=
  match earlier.chainMetadata, later.chainMetadata with
  | some before, some after => do
      checkPool epoch later.height "sapling" before.saplingCommitmentTreeSize
        after.saplingCommitmentTreeSize (later.carried (·.outputs.length))
      checkPool epoch later.height "orchard" before.orchardCommitmentTreeSize
        after.orchardCommitmentTreeSize (later.carried (·.actions.length))
      checkPool epoch later.height "ironwood" before.ironwoodCommitmentTreeSize
        after.ironwoodCommitmentTreeSize (later.carried (·.ironwoodActions.length))
  | _, _ => .error (.blockRejected epoch later.height .treeSize "block carries no chainMetadata")

/-- The checks of a block against the one before it, if it is not the first. -/
def checkPrevious (epoch : Nat) (previous : Option CompactBlock) (block : CompactBlock) :
    Except SnapshotError Unit :=
  match previous with
  | some previous => do
      checkLinkage epoch previous block
      checkTreeSizes epoch previous block
  | none => .ok ()

/-- The pass for linkage and tree sizes, keeping the hashes. -/
def verifyRecords [Prost] (epoch : Nat) :
    Nat → Option CompactBlock → List Bytes → Except SnapshotError (List Bytes)
  | _, _, [] => .ok []
  | height, previous, record :: records => do
      let block ← decodeBlock epoch height record
      checkPrevious epoch previous block
      let hashes ← verifyRecords epoch (height + 1) (some block) records
      return block.hash :: hashes

/-- Compare the claimed hashes with the node's, height by height, folding them into
the anchor. -/
def compareHashes (epoch : Nat) (nodeHashes : Table Nat String) :
    Nat → Bytes → List Bytes → Except SnapshotError Bytes
  | _, folded, [] => .ok folded
  | height, folded, claimed :: rest =>
      match nodeHashes.get height with
      | none => .error (.blockRejected epoch height .anchor "the node has no block at this height")
      | some display =>
          match displayHexToWire display with
          | .error error => .error (.blockRejected epoch height .anchor
              (s!"node returned {display.quote}: " ++ hexErrorDisplay error))
          | .ok wire =>
              if wire ≠ claimed then
                .error (.blockRejected epoch height .anchor
                  (s!"the node has {display}, the snapshot claims " ++ wireToDisplayHex claimed))
              else compareHashes epoch nodeHashes (height + 1)
                (anchorUpdate folded height wire) rest

/-- Recompute the epoch's anchor from the node and compare it, height by height. -/
def verifyAnchor [Sha256] (lookup : LookupEnv) (concurrency : Nat) (entry : EpochEntry)
    (hashes : List Bytes) : Except SnapshotError Unit := do
  let nodeHashes ← fetchBlockHashes lookup entry.index entry.start entry.stop concurrency
  let folded ← compareHashes entry.index nodeHashes entry.start [] hashes
  let recomputed := hexEncode (anchorFinish folded)
  Except.ensure (recomputed = entry.anchor) (.epochRejected entry.index .anchor
    s!"recomputed {recomputed}, manifest declares {entry.anchor}")

/-- The layers of `verify_epoch` that run before the node is asked: the records of
the body, and the hashes they claim. -/
def verifyBody [Prost] [Sha256] (body : Bytes) (entry : EpochEntry) (chain : String) :
    Except SnapshotError (List Bytes × List Bytes) := do
  let digest := hexEncode (contentDigest body)
  Except.ensure (digest = entry.contentDigest) (.epochRejected entry.index .contentDigest
    s!"computed {digest}, manifest declares {entry.contentDigest}")
  let (header, records) ← (parseEpoch body).mapError
    fun error => .epochRejected entry.index .framing error.display
  Except.ensure (header.chain = chain) (.epochRejected entry.index .chain
    s!"body is for chain {header.chain.quote}, expected {chain.quote}")
  let count := entry.stop - entry.start + 1
  Except.ensure (header.start = entry.start ∧ header.count = count) (.epochRejected entry.index
    .framing
    s!"body covers {header.count} blocks from {header.start}, manifest declares {count} from {entry.start}")
  let hashes ← verifyRecords entry.index entry.start none records
  return (records, hashes)

/-- A body as it arrives: its length, then what it holds. -/
def checkBody [Prost] [Sha256] (body : Bytes) (entry : EpochEntry) (chain : String) :
    Except SnapshotError (List Bytes × List Bytes) := do
  checkLength entry body
  verifyBody body entry chain

/-- Check that the first arriving block continues the cache. -/
def checkJunction [Prost] (cache : Cache) (epoch : Nat) (arriving : Option Bytes) :
    Except SnapshotError Unit :=
  match arriving, cache.latestHeight with
  | some record, some tipHeight => do
      match ← (cache.get tipHeight).mapError .cache with
      | some tip =>
          let first ← decodeBlock epoch (tipHeight + 1) record
          checkLinkage epoch tip first
          checkTreeSizes epoch tip first
      | none => return ()
  | _, _ => return ()

/-! ### One epoch -/

/-- How bringing in one epoch ended. -/
inductive EpochEnd
  | landed
  | failed (error : SnapshotError)
  | dropped

section

variable [Prost] [Sha256] (env : ImportEnv)

/-- Join the epoch onto the cache and append its records above `next`. -/
def appendEpoch (cache : Cache) (tip : Option Nat) (next : Nat) (entry : EpochEntry)
    (records : List Bytes) : Cache × EpochEnd :=
  let arriving := records.drop (next - entry.start)
  match checkJunction cache entry.index arriving.head? with
  | .error error => (cache, .failed error)
  | .ok () =>
      let base := if tip.isNone then some next else none
      match cache.addDecodedBatch (arriving.map Cache.decodeBlock) base with
      | (cache, .error error) => (cache, .failed (.cache error))
      | (cache, .ok ()) => (cache, .landed)

/-- Fetch, verify and append one epoch, `request` being its place in the manifest. -/
def importEpoch (cache : Cache) (tip : Option Nat) (chain : String) (concurrency request next : Nat)
    (entry : EpochEntry) : Cache × EpochEnd :=
  if entry.bytes > maxEpochBytes then
    (cache, .failed (.epochRejected entry.index .length
      s!"manifest declares {entry.bytes} bytes, past the {maxEpochBytes} an epoch may hold"))
  else
    match env.epoch request entry.index entry.bytes with
    | .dropped => (cache, .dropped)
    | .ready (.error error) => (cache, .failed error)
    | .ready (.ok body) =>
        match checkBody body entry chain with
        | .error error => (cache, .failed error)
        | .ok (records, hashes) =>
            match env.lookup request with
            | .dropped => (cache, .dropped)
            | .ready lookup =>
                match verifyAnchor lookup concurrency entry hashes with
                | .error error => (cache, .failed error)
                | .ok () => appendEpoch cache tip next entry records

/-! ### The run -/

/-- What to do about the next entry, the cache reaching up to `tip`. -/
inductive EntryAction
  | skip
  | gap
  | stop
  | take (next : Nat)

/-- Compare an entry with the cached tip and the node's. -/
def entryAction (tip : Option Nat) (nodeTip : Nat) (entry : EpochEntry) : EntryAction :=
  let next := match tip with
    | some height => height + 1
    | none => entry.start
  if entry.stop < next then .skip
  else if entry.start > next then .gap
  else if entry.stop > nodeTip then .stop
  else .take next

/-- The loop of `import` over the manifest's entries. -/
def importLoop (chain : String) (nodeTip concurrency : Nat) :
    Cache → Option Nat → Nat → List EpochEntry → Cache × ImportEnd
  | cache, tip, _, [] => (cache, .returned (.ok tip))
  | cache, tip, request, entry :: entries =>
      match entryAction tip nodeTip entry with
      | .skip => importLoop chain nodeTip concurrency cache tip (request + 1) entries
      | .gap => (cache, .returned (.error (.gap tip entry.start)))
      | .stop => (cache, .returned (.ok tip))
      | .take next =>
          match importEpoch env cache tip chain concurrency request next entry with
          | (cache, .landed) =>
              importLoop chain nodeTip concurrency cache (some entry.stop) (request + 1) entries
          | (cache, .failed error) => (cache, .returned (.error error))
          | (cache, .dropped) => (cache, .dropped)

/-- Import into `cache`, verifying every epoch against the node. -/
def importSnapshot (cache : Cache) (concurrency : Nat) : Cache × ImportEnd :=
  match env.manifest with
  | .dropped => (cache, .dropped)
  | .ready (.error error) => (cache, .returned (.error error))
  | .ready (.ok manifest) =>
      match env.blockchainInfo with
      | .dropped => (cache, .dropped)
      | .ready (.error error) => (cache, .returned (.error (.node error)))
      | .ready (.ok info) =>
          match validateManifest manifest info.chain with
          | .error error => (cache, .returned (.error error))
          | .ok () =>
              importLoop env manifest.chain info.blocks concurrency cache cache.latestHeight 0
                manifest.epochs

end

end Lightwalletd
