/-
The block cache, `src/cache.rs`.

Two tables: the compact blocks as their protobuf encoding under their height, and
a small table of metadata under string keys, which holds the digests of completed
snapshot epochs and the base height of an imported snapshot.

Every write is one `redb` transaction, run by `runTxn` on a private copy of both
tables: a body that returns early with an error leaves the copy half written, and
the copy is dropped.
-/
import Lightwalletd.Lib.Table
import Lightwalletd.Snapshot.Format

namespace Lightwalletd

/-! ### Metadata keys -/

/-- A string key of the metadata table, ordered character by character. -/
abbrev Key := List Char

/-- Prefix of the rows holding a snapshot epoch's digests. -/
def epochDigestPrefix : Key := "epoch_digest/".toList

/-- The decimal digits of `n`, zero-padded to `width`. -/
def paddedDigits : Nat → Nat → Key
  | 0, _ => []
  | width + 1, n => paddedDigits width (n / 10) ++ [Char.ofNat (48 + n % 10)]

/-- The key holding epoch `index`'s digests.  The index is padded to the twenty
digits of the largest word, so the order of the keys is that of the indexes. -/
def epochDigestKey (index : Nat) : Key := epochDigestPrefix ++ paddedDigits 20 index

def digitValue (c : Char) : Option Nat :=
  if '0' ≤ c ∧ c ≤ '9' then some (c.toNat - 48) else none

/-- Digits after a prefix worth `acc`, failing on any other character or past the
largest word. -/
def parseDigits : Nat → Key → Option Nat
  | acc, [] => some acc
  | acc, c :: rest =>
      match digitValue c with
      | none => none
      | some d => if acc * 10 + d ≤ u64Max then parseDigits (acc * 10 + d) rest else none

/-- `str::parse::<u64>`: an optional plus sign and at least one digit. -/
def parseU64 (text : Key) : Option Nat :=
  match text with
  | [] => none
  | '+' :: rest => if rest = [] then none else parseDigits 0 rest
  | rest => parseDigits 0 rest

/-- The epoch a key describes, or `none` if the key is not an epoch digest row. -/
def epochDigestIndex (key : Key) : Option Nat :=
  if epochDigestPrefix.isPrefixOf key then parseU64 (key.drop epochDigestPrefix.length)
  else none

/-- The key holding the base height of an imported snapshot. -/
def snapshotBaseHeightKey : Key := "snapshot_base_height".toList

/-- Decode a stored base height row, whichever transaction it was read under. -/
def decodeBaseHeight : Option Bytes → Except CacheError (Option Nat)
  | none => .ok none
  | some value =>
      if value.length = 8 then .ok (some (ofLeBytes value))
      else .error (.corruption 0 "snapshot_base_height is not 8 bytes")

/-! ### The cache -/

/-- The two tables of the store. -/
structure Cache where
  blocks : Table Nat Bytes
  metaRows : Table Key Bytes
  deriving DecidableEq

/-- A freshly opened cache. -/
def Cache.empty : Cache := ⟨Table.empty, Table.empty⟩

namespace Cache

/-- Where the next block of a batch has to sit: above the tip if it is the first,
and above the previous one otherwise. -/
def checkNext (tip expected : Option Nat) (height : Nat) : Except CacheError Unit :=
  match expected, tip with
  | none, some tip =>
      if height ≠ tip + 1 then
        .error (.corruption height s!"non-monotonic append: tip is {tip}, got {height}")
      else .ok ()
  | none, none => .ok ()
  | some expected, _ =>
      if height ≠ expected then
        .error (.corruption expected
          s!"batch is not consecutive: expected {expected}, got {height}")
      else .ok ()

/-- The loop of `append` over the private copy of the block table: each block is
checked, inserted, and sets the height expected next.  The copy is returned as it
stands when the loop ends, also when it ends in an error. -/
def appendLoop [Prost] (tip : Option Nat) :
    Option Nat → Table Nat Bytes → List (Except CacheError CompactBlock) →
      Table Nat Bytes × Except CacheError (Option Nat)
  | expected, table, [] => (table, .ok expected)
  | _, table, .error e :: _ => (table, .error e)
  | expected, table, .ok block :: rest =>
      match checkNext tip expected block.height with
      | .error e => (table, .error e)
      | .ok () =>
          let table := table.insert block.height (Prost.encode block)
          if block.height < u64Max then appendLoop tip (some (block.height + 1)) table rest
          else (table, .error .overflow)

/-- Append a run of blocks in one transaction, optionally recording the base height
of the snapshot they start.  The base is written only if something was appended,
and nothing is committed otherwise. -/
def append [Prost] (cache : Cache) (blocks : List (Except CacheError CompactBlock))
    (snapshotBase : Option Nat) : Cache × Except CacheError Unit :=
  runTxn cache fun copy =>
    let tip := copy.blocks.last.map (·.1)
    match appendLoop tip none copy.blocks blocks with
    | (table, .error e) => ({ copy with blocks := table }, .error e)
    | (table, .ok none) => ({ copy with blocks := table }, .ok false)
    | (table, .ok (some _)) =>
        let metaRows := match snapshotBase with
          | some base => copy.metaRows.insert snapshotBaseHeightKey (leBytes 8 base)
          | none => copy.metaRows
        ({ blocks := table, metaRows := metaRows }, .ok true)

/-- Store a run of consecutive blocks, appending onto the cache tip. -/
def addBatch [Prost] (cache : Cache) (blocks : List CompactBlock) :
    Cache × Except CacheError Unit :=
  cache.append (blocks.map .ok) none

/-- Store the block at `height`, appending onto the cache tip. -/
def add [Prost] (cache : Cache) (height : Nat) (block : CompactBlock) :
    Cache × Except CacheError Unit :=
  if block.height ≠ height then
    (cache, .error (.corruption height
      s!"block.height {block.height} does not match key {height}"))
  else cache.addBatch [block]

/-- Append blocks decoded on demand. -/
def addDecodedBatch [Prost] (cache : Cache) (blocks : List (Except CacheError CompactBlock))
    (snapshotBase : Option Nat) : Cache × Except CacheError Unit :=
  cache.append blocks snapshotBase

/-- The base height of an imported snapshot, if this cache was bootstrapped from one. -/
def snapshotBaseHeight (cache : Cache) : Except CacheError (Option Nat) :=
  decodeBaseHeight (cache.metaRows.get snapshotBaseHeightKey)

/-- `CompactBlock::decode` with the cache's error. -/
def decodeBlock [Prost] (bytes : Bytes) : Except CacheError CompactBlock :=
  (Prost.decode bytes).mapError .decode

def get [Prost] (cache : Cache) (height : Nat) : Except CacheError (Option CompactBlock) :=
  match cache.blocks.get height with
  | some bytes => (decodeBlock bytes).map some
  | none => .ok none

/-- The lowest and highest cached heights, read together. -/
def range (cache : Cache) : Option (Nat × Nat) :=
  match cache.blocks.first, cache.blocks.last with
  | some (first, _), some (last, _) => some (first, last)
  | _, _ => none

def latestHeight (cache : Cache) : Option Nat := cache.blocks.last.map (·.1)

def latestHash [Prost] (cache : Cache) : Except CacheError (Option Bytes) :=
  match cache.blocks.last with
  | some (_, value) => (decodeBlock value).map fun block => some block.hash
  | none => .ok none

/-! ### Truncation

Blocks and metadata are cut together, in one write transaction.
-/

/-- Whether a metadata row survives dropping every block at or above `height`: the
base height goes with the base block, a digest with the first height of its epoch
that is dropped, and anything else stays. -/
def keepsMeta (height : Nat) (dropsTheBase : Bool) (key : Key) : Bool :=
  if key = snapshotBaseHeightKey then !dropsTheBase
  else match epochDigestIndex key with
    | some index => index < epochIndex height
    | none => true

/-- Drop every block at or above `height`, together with the snapshot metadata that
describes blocks going with them. -/
def removeFrom (cache : Cache) (height : Nat) : Cache × Except CacheError Unit :=
  runTxn cache fun copy =>
    let blocks := copy.blocks.retain fun cached _ => cached < height
    match decodeBaseHeight (copy.metaRows.get snapshotBaseHeightKey) with
    | .error e => ({ copy with blocks := blocks }, .error e)
    | .ok base =>
        let dropsTheBase := base.any fun base => height ≤ base
        let metaRows := copy.metaRows.retain fun key _ => keepsMeta height dropsTheBase key
        ({ blocks := blocks, metaRows := metaRows }, .ok true)

/-- Drop every block above `height`. -/
def reorg (cache : Cache) (height : Nat) : Cache × Except CacheError Unit :=
  cache.removeFrom (satAdd height 1)

/-- Drop every block at or above `height`. -/
def truncateFrom (cache : Cache) (height : Nat) : Cache × Except CacheError Unit :=
  cache.removeFrom height

/-! ### Epoch digests -/

/-- The stored digest row for snapshot epoch `index`. -/
def epochDigest (cache : Cache) (index : Nat) : Option Bytes :=
  cache.metaRows.get (epochDigestKey index)

/-- Store the digest row for snapshot epoch `index`. -/
def setEpochDigest (cache : Cache) (index : Nat) (value : Bytes) :
    Cache × Except CacheError Unit :=
  runTxn cache fun copy =>
    ({ copy with metaRows := copy.metaRows.insert (epochDigestKey index) value }, .ok true)

/-- Every stored epoch digest row, ascending by key. -/
def epochDigests (cache : Cache) : List (Nat × Bytes) :=
  cache.metaRows.rows.filterMap fun row => (epochDigestIndex row.1).map (·, row.2)

/-! ### Consistency checks -/

/-- Whether the row at `height` decodes to a block of that height. -/
def goodRow [Prost] (cache : Cache) (height : Nat) : Bool :=
  match cache.blocks.get height with
  | some value =>
      match Prost.decode value with
      | .ok block => block.height = height
      | .error _ => false
  | none => false

/-- A cheap open-time consistency check: the tip decodes under its own height, and
there are as many rows as heights in the range. -/
def validateLight [Prost] (cache : Cache) : Except CacheError Unit :=
  match cache.blocks.first, cache.blocks.last with
  | some (first, _), some (last, lastValue) =>
      match Prost.decode lastValue with
      | .error e => .error (.corruption last s!"tip block failed to decode: {e.display}")
      | .ok tip =>
          if tip.height ≠ last then
            .error (.corruption last s!"tip block.height {tip.height} does not match key {last}")
          else if cache.blocks.len ≠ last - first + 1 then
            .error (.corruption last
              s!"gap detected: {cache.blocks.len} entries span [{first}, {last}]")
          else .ok ()
  | _, _ => .ok ()

/-- Walk down from `first + above` until a row is good; the corrupt suffix is
everything above it. -/
def walkDown [Prost] (cache : Cache) (first last : Nat) : Nat → Option Nat
  | 0 => if cache.goodRow first then (if first < last then some (first + 1) else none)
      else some first
  | above + 1 =>
      if cache.goodRow (first + above + 1) then
        (if first + above + 1 < last then some (first + above + 2) else none)
      else walkDown cache first last above

/-- Locate the lowest corrupt height: the lowest hole if there is one, and the
bottom of the corrupt suffix otherwise. -/
def lowestCorruptHeight [Prost] (cache : Cache) : Option Nat :=
  match cache.blocks.first, cache.blocks.last with
  | some (first, _), some (last, _) =>
      let hole :=
        if cache.blocks.len ≠ last - first + 1 then
          (List.range' first (last + 1 - first)).find? fun height =>
            (cache.blocks.get height).isNone
        else none
      match hole with
      | some height => some height
      | none => cache.walkDown first last (last - first)
  | _, _ => none

/-! ### Bounded reads

A chunk holds as many rows as fit into the budget, and its first row whatever its size.
-/

/-- What one bounded cache read returned: the stored blocks, and how much of the
request they cover, as its two ends. -/
structure CachedChunk where
  blocks : Table Nat Bytes
  low : Nat
  high : Nat

/-- The loop of `readChunk` over the rows of the request in the order they are
read: the blocks kept so far, their size, and the height the budget stopped at. -/
def readLoop (maxBytes : Nat) :
    Table Nat Bytes → Nat → List (Nat × Bytes) → Table Nat Bytes × Option Nat
  | blocks, _, [] => (blocks, none)
  | blocks, heldBytes, (height, bytes) :: rest =>
      if blocks.len ≠ 0 ∧ heldBytes + bytes.length > maxBytes then (blocks, some height)
      else readLoop maxBytes (blocks.insert height bytes) (heldBytes + bytes.length) rest

/-- Read the cached blocks in `[low, high]`, stopping once they add up to `maxBytes`. -/
def readChunk (cache : Cache) (low high : Nat) (descending : Bool) (maxBytes : Nat) :
    CachedChunk :=
  let entries := cache.blocks.range low high
  let entries := if descending then entries.reverse else entries
  match readLoop maxBytes Table.empty 0 entries, descending with
  | (blocks, some height), true => ⟨blocks, satAdd height 1, high⟩
  | (blocks, some height), false => ⟨blocks, low, height - 1⟩
  | (blocks, none), _ => ⟨blocks, low, high⟩

end Cache

end Lightwalletd
