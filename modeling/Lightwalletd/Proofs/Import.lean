/-
An import brings in whole verified epochs and nothing else.

Each verification layer is read as the condition it checks: linkage and tree sizes
say that neighbouring records decode to blocks that extend each other, the anchor
that every claimed hash is the one the node gave.  Together they make `Landed`,
what an epoch that reached the cache brought with it; anything that went wrong on
the way left the cache alone, because the append is the last step and one
transaction.

A run is then a sequence of landed epochs, `Imported`, in the order of the
manifest, whichever way it ended.  What has to hold of every appended block is
read off that sequence.
-/
import Lightwalletd.Proofs.Linked
import Lightwalletd.Proofs.Lookup
import Lightwalletd.Snapshot.Export

namespace Lightwalletd

/-! ### What each layer checks

What is proved of a layer is what its success means.
-/

theorem checkLinkage_eq_ok {epoch : Nat} {earlier later : CompactBlock} {u : Unit} :
    checkLinkage epoch earlier later = .ok u ↔ Follows earlier later :=
  Except.ensure_eq_ok

theorem checkPool_eq_ok {epoch height before after carried : Nat} {pool : String} {u : Unit} :
    checkPool epoch height pool before after carried = .ok u ↔ after = before + carried := by
  unfold checkPool
  by_cases hshrank : after < before
  · simp [hshrank]
    omega
  · by_cases hgrew : after - before = carried
    · simp [hshrank, hgrew]
      omega
    · simp [hshrank, hgrew]
      omega

theorem checkTreeSizes_eq_ok {epoch : Nat} {earlier later : CompactBlock} {u : Unit} :
    checkTreeSizes epoch earlier later = .ok u ↔ Grows earlier later := by
  unfold checkTreeSizes Grows
  rcases earlier.chainMetadata with _ | before
  · simp
  · rcases later.chainMetadata with _ | after
    · simp
    · simp [Except.bind_eq_ok, checkPool_eq_ok]

theorem checkPrevious_eq_ok {epoch : Nat} {previous : Option CompactBlock} {block : CompactBlock}
    {u : Unit} :
    checkPrevious epoch previous block = .ok u ↔ ∀ earlier ∈ previous, Extends earlier block := by
  unfold checkPrevious
  rcases previous with _ | previous
  · simp
  · simp [Except.bind_eq_ok, checkLinkage_eq_ok, checkTreeSizes_eq_ok, Extends]

section

variable [Prost]

theorem decodeBlock_eq_ok {epoch height : Nat} {record : Bytes} {block : CompactBlock} :
    decodeBlock epoch height record = .ok block ↔
      Prost.decode record = .ok block ∧ block.height = height := by
  unfold decodeBlock
  rcases Prost.decode record with error | found
  · simp
  · by_cases hheight : found.height = height
    · simp only [hheight, ne_eq, not_true_eq_false, if_false, Except.ok.injEq]
      constructor
      · rintro rfl
        exact ⟨rfl, hheight⟩
      · exact fun h => h.1
    · simp only [ne_eq, hheight, not_false_eq_true, if_true, Except.ok.injEq, reduceCtorEq,
        false_iff, not_and]
      rintro rfl
      exact hheight

/-- The pass over the records succeeds on exactly the chains of blocks. -/
theorem verifyRecords_eq_ok {epoch : Nat} :
    ∀ (records : List Bytes) (height : Nat) (previous : Option CompactBlock) (hashes : List Bytes),
      verifyRecords epoch height previous records = .ok hashes ↔
        ∃ blocks : List CompactBlock, records.map Prost.decode = blocks.map .ok ∧
          blocks.map (·.height) = List.range' height blocks.length ∧
          (previous.toList ++ blocks).IsChain Extends ∧ hashes = blocks.map (·.hash) := by
  intro records
  induction records with
  | nil =>
      intro height previous hashes
      constructor
      · intro h
        refine ⟨[], rfl, rfl, ?_, (Except.ok.inj h).symm⟩
        rcases previous with _ | previous <;> simp
      · rintro ⟨blocks, hdecode, -, -, rfl⟩
        rw [List.map_eq_nil_iff.mp hdecode.symm]
        rfl
  | cons record records ih =>
      intro height previous hashes
      have hcons : ∀ (block : CompactBlock) (blocks : List CompactBlock),
          (previous.toList ++ block :: blocks).IsChain Extends ↔
          (∀ earlier ∈ previous, Extends earlier block) ∧ (block :: blocks).IsChain Extends := by
        intro block blocks
        rcases previous with _ | previous
        · simp
        · simp [List.isChain_cons_cons]
      simp only [verifyRecords, Except.bind_eq_ok, Except.pure_eq_ok, decodeBlock_eq_ok,
        checkPrevious_eq_ok, ih]
      constructor
      · rintro ⟨block, ⟨hdecode, hheight⟩, -, hextends, rest,
          ⟨blocks, hmap, hheights, hchain, rfl⟩, rfl⟩
        refine ⟨block :: blocks, by simp [hdecode, hmap], ?_, (hcons _ _).mpr ⟨hextends, hchain⟩,
          rfl⟩
        rw [List.map_cons, hheights, hheight, List.length_cons, List.range'_succ]
      · rintro ⟨blocks, hdecode, hheights, hchain, rfl⟩
        rcases blocks with _ | ⟨block, blocks⟩
        · simp at hdecode
        rw [List.map_cons, List.map_cons, List.cons.injEq] at hdecode
        rw [List.map_cons, List.length_cons, List.range'_succ, List.cons.injEq] at hheights
        obtain ⟨hextends, hrest⟩ := (hcons _ _).mp hchain
        exact ⟨block, ⟨hdecode.1, hheights.1⟩, (), hextends, _,
          ⟨blocks, hdecode.2, hheights.2, hrest, rfl⟩, rfl⟩

end

/-- The bytes an anchor folds in: each height with its hash. -/
def foldAnchor : Nat → Bytes → List Bytes → Bytes
  | _, folded, [] => folded
  | height, folded, hash :: hashes =>
      foldAnchor (height + 1) (anchorUpdate folded height hash) hashes

/-- The node's hashes agree with the claimed ones from `height` on. -/
def HashesAgree (nodeHashes : Table Nat String) (height : Nat) (hashes : List Bytes) : Prop :=
  ∀ (i : Nat) (hash : Bytes), hashes[i]? = some hash →
    ∃ display, nodeHashes.get (height + i) = some display ∧ displayHexToWire display = .ok hash

private theorem hashesAgree_cons {nodeHashes : Table Nat String} {height : Nat} {hash : Bytes}
    {hashes : List Bytes} :
    HashesAgree nodeHashes height (hash :: hashes) ↔
      (∃ display, nodeHashes.get height = some display ∧ displayHexToWire display = .ok hash) ∧
      HashesAgree nodeHashes (height + 1) hashes := by
  constructor
  · intro h
    refine ⟨h 0 hash rfl, ?_⟩
    intro i found hi
    have hshift : height + 1 + i = height + (i + 1) := by omega
    rw [hshift]
    exact h (i + 1) found hi
  · rintro ⟨hhead, hrest⟩ i found hi
    rcases i with _ | i
    · obtain rfl : hash = found := Option.some.inj hi
      exact hhead
    · have hshift : height + (i + 1) = height + 1 + i := by omega
      rw [hshift]
      exact hrest i found hi

/-- The comparison succeeds on exactly the node's hashes, and folds them all in. -/
theorem compareHashes_eq_ok {epoch : Nat} {nodeHashes : Table Nat String} :
    ∀ (hashes : List Bytes) (height : Nat) (folded out : Bytes),
      compareHashes epoch nodeHashes height folded hashes = .ok out ↔
        HashesAgree nodeHashes height hashes ∧ out = foldAnchor height folded hashes := by
  intro hashes
  induction hashes with
  | nil =>
      intro height folded out
      simp [compareHashes, HashesAgree, foldAnchor, eq_comm]
  | cons claimed hashes ih =>
      intro height folded out
      rw [hashesAgree_cons, foldAnchor]
      unfold compareHashes
      rcases hget : nodeHashes.get height with _ | display
      · simp
      rcases hwire : displayHexToWire display with error | wire
      · simp [hwire]
      · by_cases heq : wire = claimed
        · subst heq
          simp [hwire, ih]
        · simp [hwire, heq]

/-! ### A verified body

A body that has passed all layers is a run of blocks with the node's hashes, whatever
the peer meant to send.
-/

private theorem parseRecords_length {body : Bytes} :
    ∀ {count : Nat} {rest left : Bytes} {records : List Bytes},
      parseRecords body count rest = .ok (records, left) → records.length = count := by
  intro count
  induction count with
  | zero =>
      intro rest left records h
      simp only [parseRecords, Except.ok.injEq, Prod.mk.injEq] at h
      rw [← h.1]
      rfl
  | succ count ih =>
      intro rest left records h
      unfold parseRecords at h
      simp only [Except.bind_eq_ok, Except.pure_eq_ok, Prod.mk.injEq] at h
      obtain ⟨_, -, _, -, ⟨records', left'⟩, hrec, rfl, -⟩ := h
      rw [List.length_cons, ih hrec]

private theorem parseEpoch_length {body : Bytes} {header : EpochHeader} {records : List Bytes}
    (h : parseEpoch body = .ok (header, records)) : records.length = header.count := by
  unfold parseEpoch at h
  simp only [Except.bind_eq_ok, Except.pure_eq_ok, Prod.mk.injEq] at h
  obtain ⟨_, -, _, -, _, -, _, -, _, -, _, -, _, -, ⟨found, left⟩, hrecords, _, -, hheader,
      hfound⟩ := h
  rw [← hheader, ← hfound]
  exact parseRecords_length hrecords

section

variable [Prost] [Sha256]

/-- What the body of an epoch has been verified to hold. -/
structure BodyHolds (entry : EpochEntry) (records : List Bytes) (blocks : List CompactBlock) :
    Prop where
  decode : records.map Prost.decode = blocks.map .ok
  count : blocks.length = entry.stop - entry.start + 1
  heights : blocks.map (·.height) = List.range' entry.start blocks.length
  chained : blocks.IsChain Extends

theorem verifyBody_ok {body : Bytes} {entry : EpochEntry} {chain : String}
    {records hashes : List Bytes} (h : verifyBody body entry chain = .ok (records, hashes)) :
    ∃ blocks, BodyHolds entry records blocks ∧ hashes = blocks.map (·.hash) := by
  unfold verifyBody at h
  simp only [Except.bind_eq_ok, Except.pure_eq_ok, Except.ensure_eq_ok, Except.mapError_eq_ok,
    Prod.mk.injEq] at h
  obtain ⟨_, -, ⟨header, found⟩, hparse, _, -, _, ⟨-, hcount⟩, claimed, hverify, rfl, rfl⟩ := h
  obtain ⟨blocks, hdecode, hheights, hchain, rfl⟩ := (verifyRecords_eq_ok _ _ _ _).mp hverify
  refine ⟨blocks, ⟨hdecode, ?_, hheights, hchain⟩, rfl⟩
  have hlen := congrArg List.length hdecode
  rw [List.length_map, List.length_map, parseEpoch_length hparse, hcount] at hlen
  exact hlen.symm

omit [Sha256] in
theorem BodyHolds.drop {entry : EpochEntry} {records : List Bytes} {blocks : List CompactBlock}
    (h : BodyHolds entry records blocks) {next : Nat} (hlow : entry.start ≤ next)
    (hhigh : next ≤ entry.stop) :
    (records.drop (next - entry.start)).map Prost.decode
      = (blocks.drop (next - entry.start)).map .ok ∧
    (blocks.drop (next - entry.start)).length = entry.stop + 1 - next ∧
    (blocks.drop (next - entry.start)).map (·.height)
      = List.range' next (entry.stop + 1 - next) ∧
    (blocks.drop (next - entry.start)).IsChain Extends := by
  have hlen : (blocks.drop (next - entry.start)).length = entry.stop + 1 - next := by
    rw [List.length_drop, h.count]
    omega
  refine ⟨by rw [List.map_drop, h.decode, List.map_drop], hlen, ?_, h.chained.drop _⟩
  rw [List.map_drop, h.heights, List.drop_range', h.count]
  congr 1 <;> omega

omit [Prost] in
/-- A verified anchor: every claimed hash is one the node gave for its height. -/
theorem verifyAnchor_ok {P : Nat × String → Prop} {lookup : LookupEnv} {concurrency : Nat}
    {entry : EpochEntry} {blocks : List CompactBlock} {u : Unit}
    (hheights : blocks.map (·.height) = List.range' entry.start blocks.length)
    (h : verifyAnchor lookup concurrency entry (blocks.map (·.hash)) = .ok u)
    (hlookup : ∀ row, Answered lookup (lookupBatches entry.start entry.stop) row → P row) :
    ∀ block ∈ blocks, ∃ display, P (block.height, display) ∧
      displayHexToWire display = .ok block.hash := by
  intro block hin
  obtain ⟨nodeHashes, hfetch, hcompare⟩ := Except.bind_eq_ok.mp h
  obtain ⟨folded, hfold, -⟩ := Except.bind_eq_ok.mp hcompare
  obtain ⟨hagree, -⟩ := (compareHashes_eq_ok _ _ _ _).mp hfold
  obtain ⟨i, hi⟩ := List.mem_iff_getElem?.mp hin
  obtain ⟨display, hget, hwire⟩ := hagree i block.hash (by rw [List.getElem?_map, hi]; rfl)
  have hheight : block.height = entry.start + i := by
    have hlt := (List.getElem?_eq_some_iff.mp hi).1
    have hat := congrArg (fun l => l[i]?) hheights
    simp only [List.getElem?_map, hi, Option.map_some, List.getElem?_range' hlt] at hat
    simpa using hat
  refine ⟨display, hlookup _ ?_, hwire⟩
  rw [hheight]
  exact (fetchBlockHashes_ok hfetch).1 _ (Table.get_eq_some_iff.mp hget)

/-! ### A landed epoch

Only the part above the tip is appended, and only if it goes onto the tip: that is the
junction.
-/

/-- What an epoch that landed brought with it: the run of its blocks from `next` to
its last height, linked and grown from the tip on, with every hash from a row that
satisfies `P`. -/
structure Landed (P : Nat × String → Prop) (cache : Cache) (entry : EpochEntry)
    (blocks : List CompactBlock) (cache' : Cache) : Prop where
  appended : ∃ next, entry.start ≤ next ∧ next ≤ entry.stop ∧
    (∀ tip, cache.latestHeight = some tip → next = tip + 1) ∧
    (cache.latestHeight = none → next = entry.start) ∧
    blocks.length = entry.stop + 1 - next ∧
    Cache.Appended cache blocks (if cache.latestHeight.isNone then some next else none) next cache'
  chained : blocks.IsChain Extends
  joined : ∀ row tip first, cache.blocks.last = some row → Prost.decode row.2 = .ok tip →
    blocks.head? = some first → Extends tip first
  anchored : ∀ block ∈ blocks, ∃ display, P (block.height, display) ∧
    displayHexToWire display = .ok block.hash

omit [Sha256] in
theorem checkJunction_eq_ok {cache : Cache} (hcache : cache.Stored) {epoch : Nat} {record : Bytes}
    {u : Unit} :
    checkJunction cache epoch (some record) = .ok u ↔
      ∀ row tip, cache.blocks.last = some row → Prost.decode row.2 = .ok tip →
        ∃ first, Prost.decode record = .ok first ∧ first.height = row.1 + 1 ∧
          Extends tip first := by
  unfold checkJunction Cache.latestHeight
  rcases hlast : cache.blocks.last with _ | row
  · simp [Except.pure_eq_ok]
  obtain ⟨height, value⟩ := row
  obtain ⟨block, hdecode, -, hget⟩ :=
    hcache.get_eq (Table.get_eq_some_iff.mpr (Table.last_mem hlast))
  simp only [Option.map_some, hget, Except.bind_eq_ok, Except.mapError_eq_ok, Except.ok.injEq,
    exists_eq_left', decodeBlock_eq_ok, checkLinkage_eq_ok, checkTreeSizes_eq_ok]
  constructor
  · rintro ⟨first, ⟨hfirst, hheight⟩, -, hfollows, hgrows⟩ row tip hrow htip
    obtain rfl : (height, value) = row := Option.some.inj hrow
    obtain rfl : block = tip := Except.ok.inj (hdecode.symm.trans htip)
    exact ⟨first, hfirst, hheight, hfollows, hgrows⟩
  · intro h
    obtain ⟨first, hfirst, hheight, hfollows, hgrows⟩ := h _ block rfl hdecode
    exact ⟨first, ⟨hfirst, hheight⟩, (), hfollows, hgrows⟩

omit [Sha256] in
theorem map_decodeBlock {records : List Bytes} {blocks : List CompactBlock}
    (h : records.map Prost.decode = blocks.map .ok) :
    records.map Cache.decodeBlock = blocks.map .ok := by
  have hcomp : records.map Cache.decodeBlock
      = (records.map Prost.decode).map (Except.mapError CacheError.decode) := by
    rw [List.map_map]
    rfl
  rw [hcomp, h, List.map_map]
  rfl

omit [Sha256] in
theorem appendEpoch_cases {P : Nat × String → Prop} {cache : Cache} (hcache : cache.Stored)
    {next : Nat} {entry : EpochEntry} {records : List Bytes} {blocks : List CompactBlock}
    (hbody : BodyHolds entry records blocks)
    (hlow : entry.start ≤ next) (hhigh : next ≤ entry.stop)
    (htip : ∀ tip, cache.latestHeight = some tip → next = tip + 1)
    (hempty : cache.latestHeight = none → next = entry.start)
    (hanchored : ∀ block ∈ blocks, ∃ display, P (block.height, display) ∧
      displayHexToWire display = .ok block.hash) :
    (∃ error, appendEpoch cache cache.latestHeight next entry records = (cache, .failed error)) ∨
    ∃ arriving cache', appendEpoch cache cache.latestHeight next entry records = (cache', .landed) ∧
      Landed P cache entry arriving cache' := by
  obtain ⟨hdecode, hlen, hheights, hchain⟩ := hbody.drop hlow hhigh
  unfold appendEpoch
  rcases hjunction : checkJunction cache entry.index (records.drop (next - entry.start)).head?
    with error | u
  · exact Or.inl ⟨error, by simp only [hjunction]⟩
  simp only [hjunction, Cache.addDecodedBatch, map_decodeBlock hdecode]
  rcases cache.append_cases ((blocks.drop (next - entry.start)).map .ok)
      (if cache.latestHeight.isNone = true then some next else none) with
    ⟨e, heq⟩ | ⟨hnil, -⟩ | ⟨arriving, h, cache', hmap, heq, happ⟩
  · exact Or.inl ⟨.cache e, by rw [heq]⟩
  · have := List.length_eq_zero_iff.mpr (List.map_eq_nil_iff.mp hnil)
    omega
  refine Or.inr ⟨arriving, cache', by rw [heq], ?_⟩
  obtain rfl : blocks.drop (next - entry.start) = arriving :=
    List.map_injective_iff.mpr (fun a b hab => Except.ok.inj hab) hmap
  obtain rfl : h = next := by
    have hfirst := happ.heights.symm.trans hheights
    rw [hlen, show entry.stop + 1 - next = entry.stop - next + 1 by omega, List.range'_succ,
      List.range'_succ] at hfirst
    exact (List.cons.inj hfirst).1
  refine ⟨⟨h, hlow, hhigh, htip, hempty, hlen, happ⟩, hchain, ?_,
    fun block hin => hanchored block (List.mem_of_mem_drop hin)⟩
  intro row tip first hrow hdec hfirst
  rcases hrecords : records.drop (h - entry.start) with _ | ⟨record, rest⟩
  · rw [hrecords] at hdecode
    rw [List.map_eq_nil_iff.mp hdecode.symm] at hfirst
    simp at hfirst
  · rw [hrecords] at hjunction hdecode
    obtain ⟨found, hfound, -, hextends⟩ :=
        (checkJunction_eq_ok hcache).mp hjunction row tip hrow hdec
    rcases hblocks : blocks.drop (h - entry.start) with _ | ⟨block, more⟩
    · rw [hblocks] at hfirst
      simp at hfirst
    · rw [hblocks, List.map_cons, List.map_cons, List.cons.injEq] at hdecode
      rw [hblocks] at hfirst
      obtain rfl : block = first := Option.some.inj hfirst
      obtain rfl : found = block := Except.ok.inj (hfound.symm.trans hdecode.1)
      exact hextends

variable (env : ImportEnv)

/-- **One epoch lands whole or not at all.**  What landed was verified against the
answers of this epoch's own lookup. -/
theorem importEpoch_cases {P : Nat × String → Prop} {cache : Cache} (hcache : cache.Stored)
    (chain : String) (concurrency request : Nat) {next : Nat} {entry : EpochEntry}
    (hlow : entry.start ≤ next) (hhigh : next ≤ entry.stop)
    (htip : ∀ tip, cache.latestHeight = some tip → next = tip + 1)
    (hempty : cache.latestHeight = none → next = entry.start)
    (hlookup : ∀ lookup, env.lookup request = .ready lookup →
      ∀ row, Answered lookup (lookupBatches entry.start entry.stop) row → P row) :
    (∃ result, result ≠ .landed ∧
      importEpoch env cache cache.latestHeight chain concurrency request next entry
        = (cache, result)) ∨
    ∃ blocks cache',
      importEpoch env cache cache.latestHeight chain concurrency request next entry
        = (cache', .landed) ∧ Landed P cache entry blocks cache' := by
  unfold importEpoch
  by_cases hbytes : entry.bytes > maxEpochBytes
  · rw [if_pos hbytes]
    exact Or.inl ⟨_, by simp, rfl⟩
  rw [if_neg hbytes]
  rcases env.epoch request entry.index entry.bytes with (error | body) | _
  · exact Or.inl ⟨_, by simp, rfl⟩
  · rcases hverify : checkBody body entry chain with error | ⟨records, hashes⟩
    · exact Or.inl ⟨.failed error, by simp, by simp only [hverify]⟩
    obtain ⟨_, -, hbody⟩ := Except.bind_eq_ok.mp hverify
    obtain ⟨blocks, hholds, rfl⟩ := verifyBody_ok hbody
    simp only [hverify]
    rcases hready : env.lookup request with lookup | _
    · simp only
      rcases hanchor : verifyAnchor lookup concurrency entry (blocks.map (·.hash)) with error | u
      · exact Or.inl ⟨.failed error, by simp, by simp only [hanchor]⟩
      simp only [hanchor]
      have hanchored := verifyAnchor_ok hholds.heights hanchor (hlookup lookup hready)
      rcases appendEpoch_cases hcache hholds hlow hhigh htip hempty hanchored with
        ⟨error, heq⟩ | ⟨arriving, cache', heq, hlanded⟩
      · exact Or.inl ⟨.failed error, by simp, heq⟩
      · exact Or.inr ⟨arriving, cache', heq, hlanded⟩
    · exact Or.inl ⟨_, by simp, rfl⟩
  · exact Or.inl ⟨_, by simp, rfl⟩

end

/-! ### A whole run

A run is followed entry by entry.  What it has brought so far is a list of blocks, each
with the answer that confirmed it, and every epoch adds to that.
-/

section

variable [Prost] {P : Nat × String → Prop} {cache cache' : Cache}

/-- A sequence of landed epochs, each with the blocks it brought. -/
inductive Imported (P : Nat × String → Prop) :
    Cache → List (EpochEntry × List CompactBlock) → Cache → Prop
  | nil (cache : Cache) : Imported P cache [] cache
  | cons {cache middle cache' : Cache} {entry : EpochEntry} {blocks : List CompactBlock}
      {parts : List (EpochEntry × List CompactBlock)} (hland : Landed P cache entry blocks middle)
      (hrest : Imported P middle parts cache') : Imported P cache ((entry, blocks) :: parts) cache'

theorem Cache.Appended.latestHeight {blocks : List CompactBlock} {base : Option Nat} {start : Nat}
    (happ : Cache.Appended cache blocks base start cache') :
    cache'.latestHeight = some (start + blocks.length - 1) ∧
      blocks.getLast?.map (·.height) = some (start + blocks.length - 1) := by
  have hpos : 0 < blocks.length := List.length_pos_iff_ne_nil.mpr happ.nonempty
  have hlast : blocks.getLast?.map (·.height) = some (start + blocks.length - 1) := by
    rw [← List.getLast?_map, happ.heights, List.getLast?_range', if_neg (by omega)]
  refine ⟨?_, hlast⟩
  rw [Cache.latestHeight, Table.last_of_append happ.rows (by simpa using happ.nonempty),
    List.getLast?_map, Option.map_map]
  exact hlast

theorem Landed.latestHeight {entry : EpochEntry} {blocks : List CompactBlock}
    (h : Landed P cache entry blocks cache') : cache'.latestHeight = some entry.stop := by
  obtain ⟨next, hlow, hhigh, -, -, hlen, happ⟩ := h.appended
  rw [happ.latestHeight.1]
  congr 1
  omega

theorem Landed.chained_cache {R : CompactBlock → CompactBlock → Prop} {entry : EpochEntry}
    {blocks : List CompactBlock} (h : Landed P cache entry blocks cache')
    (hcache : cache.Chained R) (hR : ∀ a b, Extends a b → R a b) : cache'.Chained R := by
  obtain ⟨next, -, -, -, -, -, happ⟩ := h.appended
  refine happ.chained hcache (h.chained.imp hR) ?_
  intro row tip first hrow htip hfirst
  exact hR _ _ (h.joined row tip first hrow htip hfirst)

theorem Imported.chained_cache {R : CompactBlock → CompactBlock → Prop}
    {parts : List (EpochEntry × List CompactBlock)} (h : Imported P cache parts cache')
    (hR : ∀ a b, Extends a b → R a b) (hcache : cache.Chained R) : cache'.Chained R := by
  induction h with
  | nil => exact hcache
  | cons hland _ ih => exact ih (hland.chained_cache hcache hR)

omit [Prost] in
/-- When the loop takes an entry, the entry reaches over the next height. -/
theorem entryAction_take {tip : Option Nat} {nodeTip next : Nat} {entry : EpochEntry}
    (h : entryAction tip nodeTip entry = .take next) :
    entry.start ≤ next ∧ next ≤ entry.stop ∧ entry.stop ≤ nodeTip ∧
      (∀ t, tip = some t → next = t + 1) ∧ (tip = none → next = entry.start) := by
  rcases tip with _ | t
  · simp only [entryAction] at h
    by_cases h1 : entry.stop < entry.start
    · simp [h1] at h
    by_cases h2 : entry.stop > nodeTip
    · simp [h1, h2] at h
    simp [h1, h2] at h
    simp
    omega
  · simp only [entryAction] at h
    by_cases h1 : entry.stop < t + 1
    · simp [h1] at h
    by_cases h2 : entry.start > t + 1
    · simp [h1, h2] at h
    by_cases h3 : entry.stop > nodeTip
    · simp [h1, h2, h3] at h
    simp [h1, h2, h3] at h
    simp
    omega

theorem importLoop_imported [Sha256] (env : ImportEnv) (chain : String)
    (nodeTip concurrency : Nat) :
    ∀ (entries : List EpochEntry) (cache : Cache) (request : Nat), cache.Chained Follows →
      (∀ (i : Nat) (entry : EpochEntry), entries[i]? = some entry →
        ∀ lookup, env.lookup (request + i) = .ready lookup →
        ∀ row, Answered lookup (lookupBatches entry.start entry.stop) row → P row) →
      ∃ parts, Imported P cache parts
          (importLoop env chain nodeTip concurrency cache cache.latestHeight request entries).1 ∧
        (parts.map (·.1)).Sublist entries := by
  intro entries
  induction entries with
  | nil => intro cache request _ _; exact ⟨[], .nil cache, List.Sublist.slnil⟩
  | cons entry entries ih =>
      intro cache request hcache hlookup
      have hshift : ∀ (i : Nat) (e : EpochEntry), entries[i]? = some e →
          ∀ lookup, env.lookup (request + 1 + i) = .ready lookup →
          ∀ row, Answered lookup (lookupBatches e.start e.stop) row → P row := by
        intro i e hi lookup hready
        refine hlookup (i + 1) e hi lookup ?_
        rw [← hready]
        congr 1
        omega
      unfold importLoop
      rcases haction : entryAction cache.latestHeight nodeTip entry with _ | _ | _ | next
      · obtain ⟨parts, himp, hsub⟩ := ih cache (request + 1) hcache hshift
        exact ⟨parts, himp, hsub.cons entry⟩
      · exact ⟨[], .nil cache, List.nil_sublist _⟩
      · exact ⟨[], .nil cache, List.nil_sublist _⟩
      · obtain ⟨hlow, hhigh, -, htip, hempty⟩ := entryAction_take haction
        rcases importEpoch_cases env hcache.toStored chain concurrency request hlow hhigh htip
            hempty (hlookup 0 entry rfl) with
          ⟨result, hresult, heq⟩ | ⟨blocks, middle, heq, hland⟩
        · rcases result with _ | error | _
          · exact absurd rfl hresult
          · exact ⟨[], by simpa only [heq] using .nil cache, List.nil_sublist _⟩
          · exact ⟨[], by simpa only [heq] using .nil cache, List.nil_sublist _⟩
        · have hmiddle := hland.chained_cache hcache fun _ _ h => h.1
          obtain ⟨parts, himp, hsub⟩ := ih middle (request + 1) hmiddle hshift
          rw [hland.latestHeight] at himp
          exact ⟨(entry, blocks) :: parts, by simpa only [heq] using .cons hland himp,
            hsub.cons_cons entry⟩

/-- The epochs the peer offered. -/
def ImportEnv.epochs (env : ImportEnv) : List EpochEntry :=
  match env.manifest with
  | .ready (.ok manifest) => manifest.epochs
  | _ => []

/-- **A run of an import is a sequence of landed epochs**, in the order of the
manifest, whether it returned, failed or was dropped. -/
theorem importSnapshot_imported [Sha256] (env : ImportEnv) (concurrency : Nat)
    (hcache : cache.Good)
    (hlookup : ∀ (request : Nat) (entry : EpochEntry), env.epochs[request]? = some entry →
      ∀ lookup, env.lookup request = .ready lookup →
      ∀ row, Answered lookup (lookupBatches entry.start entry.stop) row → P row) :
    ∃ parts, Imported P cache parts (importSnapshot env cache concurrency).1 ∧
      (parts.map (·.1)).Sublist env.epochs := by
  have hnothing : ∃ parts, Imported P cache parts cache ∧ (parts.map (·.1)).Sublist env.epochs :=
    ⟨[], .nil cache, List.nil_sublist _⟩
  unfold importSnapshot
  rcases hmanifest : env.manifest with (error | manifest) | _
  · exact hnothing
  · rcases env.blockchainInfo with (error | info) | _
    · exact hnothing
    · simp only
      rcases validateManifest manifest info.chain with error | u
      · exact hnothing
      · have hepochs : env.epochs = manifest.epochs := by simp [ImportEnv.epochs, hmanifest]
        rw [hepochs] at hlookup ⊢
        refine importLoop_imported env _ _ _ _ cache 0 hcache ?_
        intro i entry hi lookup hready
        exact hlookup i entry hi lookup (by rw [← hready, Nat.zero_add])
    · exact hnothing
  · exact hnothing

/-! ### Soundness against a hostile peer -/

/-- The rows of an import: the old ones, then one for each block brought. -/
theorem Imported.rows_eq {parts : List (EpochEntry × List CompactBlock)}
    (h : Imported P cache parts cache') :
    cache'.blocks.rows = cache.blocks.rows ++ (parts.flatMap (·.2)).map Cache.rowOf := by
  induction h with
  | nil => simp
  | cons hland _ ih =>
      obtain ⟨next, -, -, -, -, -, happ⟩ := hland.appended
      rw [ih, happ.rows, List.flatMap_cons, List.map_append, List.append_assoc]

theorem Imported.anchored {parts : List (EpochEntry × List CompactBlock)}
    (h : Imported P cache parts cache') :
    ∀ block ∈ parts.flatMap (·.2), ∃ display, P (block.height, display) ∧
      displayHexToWire display = .ok block.hash := by
  induction h with
  | nil => simp
  | cons hland _ ih =>
      intro block hin
      rw [List.flatMap_cons] at hin
      rcases List.mem_append.mp hin with hin | hin
      · exact hland.anchored block hin
      · exact ih block hin

/-- The heights of an entry above a tip. -/
def heightsAbove (tip : Option Nat) (entry : EpochEntry) : List Nat :=
  (List.range' entry.start (entry.stop + 1 - entry.start)).filter fun height =>
    tip.all (· < height)

/-- Every part holds all the heights of its entry above the tip the parts before it
left, and at least one. -/
def WholeAbove : Option Nat → List (EpochEntry × List CompactBlock) → Prop
  | _, [] => True
  | tip, (entry, blocks) :: parts =>
      blocks ≠ [] ∧ blocks.map (·.height) = heightsAbove tip entry ∧
        WholeAbove (blocks.getLast?.map (·.height)) parts

omit [Prost] in
/-- Above a tip inside the entry, or on an empty cache, these are one run. -/
private theorem heightsAbove_eq {tip : Option Nat} {entry : EpochEntry} {next : Nat}
    (hlow : entry.start ≤ next) (hhigh : next ≤ entry.stop)
    (htip : ∀ t, tip = some t → next = t + 1) (hempty : tip = none → next = entry.start) :
    heightsAbove tip entry = List.range' next (entry.stop + 1 - next) := by
  rw [heightsAbove, ← range'_join entry.start next entry.stop hlow (by omega), List.filter_append]
  have hbelow : (List.range' entry.start (next - entry.start)).filter
      (fun height => tip.all (· < height)) = [] := by
    refine List.filter_eq_nil_iff.mpr ?_
    intro height hin
    have hrange := List.mem_range'_1.mp hin
    rcases tip with _ | t
    · have := hempty rfl
      omega
    · have := htip t rfl
      simp only [Option.all_some, decide_eq_true_eq]
      omega
  have habove : (List.range' next (entry.stop + 1 - next)).filter
      (fun height => tip.all (· < height)) = List.range' next (entry.stop + 1 - next) := by
    refine List.filter_eq_self.mpr ?_
    intro height hin
    have hrange := List.mem_range'_1.mp hin
    rcases tip with _ | t
    · rfl
    · have := htip t rfl
      simp only [Option.all_some, decide_eq_true_eq]
      omega
  rw [hbelow, habove, List.nil_append]

theorem Imported.wholeAbove {parts : List (EpochEntry × List CompactBlock)}
    (h : Imported P cache parts cache') : WholeAbove cache.latestHeight parts := by
  induction h with
  | nil => trivial
  | cons hland _ ih =>
      obtain ⟨next, hlow, hhigh, htip, hempty, hlen, happ⟩ := hland.appended
      refine ⟨happ.nonempty, ?_, ?_⟩
      · rw [heightsAbove_eq hlow hhigh htip hempty, happ.heights, hlen]
      · rw [happ.latestHeight.2, ← happ.latestHeight.1]
        exact ih

/-- The relation an import establishes above the tip it found: linked everywhere,
and grown where the block is new. -/
def NewExtends (tip : Option Nat) (earlier later : CompactBlock) : Prop :=
  Follows earlier later ∧ ((∀ t, tip = some t → t < later.height) → Grows earlier later)

theorem Cache.Good.newExtends (h : cache.Good) :
    cache.Chained (NewExtends cache.latestHeight) := by
  refine ⟨h.toStored, h.chained.imp_of_mem_imp ?_⟩
  intro lower upper _ hupper hrel earlier later hearlier hlater
  refine ⟨hrel earlier later hearlier hlater, ?_⟩
  -- A row that is already there is not above the tip.
  intro hnew
  exfalso
  obtain ⟨block, hdecode, hheight⟩ := h.toStored.rows upper hupper
  obtain rfl : block = later := Except.ok.inj (hdecode.symm.trans hlater)
  rcases hlast : cache.blocks.last with _ | top
  · rw [Table.last_eq_none_iff.mp hlast] at hupper
    simp at hupper
  · have hle := Table.le_last hupper hlast
    have hlt := hnew top.1 (by rw [Cache.latestHeight, hlast]; rfl)
    omega

/-- The node answers with fixed hashes: whatever it gives for a height is the hash
that `nodeHash` has there. -/
def ImportEnv.NodeHashes (env : ImportEnv) (nodeHash : Nat → String) : Prop :=
  ∀ (request : Nat) (entry : EpochEntry), env.epochs[request]? = some entry →
    ∀ lookup, env.lookup request = .ready lookup →
    ∀ row, Answered lookup (lookupBatches entry.start entry.stop) row → row.2 = nodeHash row.1

/--
**An import is sound against a hostile peer.**  Whatever the manifest and the bodies
are, and however the run ends, the cache is the one it started from followed by
epochs of the manifest in their order, each with all its heights above the tip so
far.  Every appended block has the node's hash at its height, and extends the row
below it, if there is one, in hashes and in tree sizes.
-/
theorem import_sound [Sha256] (env : ImportEnv) (concurrency : Nat) (nodeHash : Nat → String)
    (hcache : cache.Good) (hnode : env.NodeHashes nodeHash) :
    ∃ parts : List (EpochEntry × List CompactBlock),
      (parts.map (·.1)).Sublist env.epochs ∧
      WholeAbove cache.latestHeight parts ∧
      (importSnapshot env cache concurrency).1.blocks.rows
        = cache.blocks.rows ++ (parts.flatMap (·.2)).map Cache.rowOf ∧
      ∀ block ∈ parts.flatMap (·.2),
        displayHexToWire (nodeHash block.height) = .ok block.hash ∧
        ∀ height value below, height + 1 = block.height →
          (importSnapshot env cache concurrency).1.blocks.get height = some value →
          Prost.decode value = .ok below → Follows below block ∧ Grows below block := by
  obtain ⟨parts, himp, hsub⟩ := importSnapshot_imported (P := fun row => row.2 = nodeHash row.1)
    env concurrency hcache hnode
  refine ⟨parts, hsub, himp.wholeAbove, himp.rows_eq, ?_⟩
  intro block hin
  obtain ⟨display, hdisplay, hwire⟩ := himp.anchored block hin
  refine ⟨by rw [← hdisplay]; exact hwire, ?_⟩
  intro height value below hheight hget hdecode
  have hchained := himp.chained_cache (R := NewExtends cache.latestHeight)
    (fun a b hab => ⟨hab.1, fun _ => hab.2⟩) hcache.newExtends
  have hblock : (importSnapshot env cache concurrency).1.blocks.get (height + 1)
      = some (Prost.encode block) := by
    refine Table.get_eq_some_iff.mpr ?_
    rw [himp.rows_eq, hheight]
    exact List.mem_append_right _ (List.mem_map.mpr ⟨block, hin, rfl⟩)
  obtain ⟨hfollows, hgrows⟩ := hchained.contiguous.adjacent hchained.chained hget hblock below block
    hdecode (Prost.decode_encode block)
  refine ⟨hfollows, hgrows ?_⟩
  -- The new rows all lie above the old ones.
  intro t ht
  obtain ⟨top, htop, rfl⟩ := Option.map_eq_some_iff.mp ht
  have hsorted := (importSnapshot env cache concurrency).1.blocks.sorted
  rw [himp.rows_eq] at hsorted
  exact (List.pairwise_append.mp hsorted).2.2 top (Table.last_mem htop) (Cache.rowOf block)
    (List.mem_map.mpr ⟨block, hin, rfl⟩)

end

/-! ### A peer -/

/-- A cache that publishes its lowest block, the last of an epoch. -/
def publisher : Cache :=
  (storeNextEpochDigest
    ((StoreOp.addBatch [emptyBlock 9999, emptyBlock 10000]).apply Cache.empty).1 "main").1

/-- What an import from it sees. -/
def publisherEnv : ImportEnv where
  manifest := .ready (manifest publisher "main")
  blockchainInfo := .ready (.ok ⟨"main", 10000, wireToDisplayHex (emptyBlock 10000).hash⟩)
  epoch _ index _ := .ready (writeEpoch publisher "main" index)
  lookup _ := .ready ⟨id, fun _ => .answered (.ok [wireToDisplayHex (emptyBlock 9999).hash])⟩

theorem publisherEnv_epochs :
    publisherEnv.epochs.map (fun entry => (entry.start, entry.stop)) = [(9999, 9999)] := by
  decide +kernel

theorem publisherEnv_sound :
    ∃ parts : List (EpochEntry × List CompactBlock),
      (parts.map (·.1)).Sublist publisherEnv.epochs ∧
      (importSnapshot publisherEnv Cache.empty 4).1.blocks.rows
        = (parts.flatMap (·.2)).map Cache.rowOf ∧
      ∀ block ∈ parts.flatMap (·.2),
        displayHexToWire (wireToDisplayHex (emptyBlock block.height).hash) = .ok block.hash := by
  have hnode : publisherEnv.NodeHashes fun height => wireToDisplayHex (emptyBlock height).hash := by
    intro request entry hentry lookup hlookup row hrow
    obtain rfl := Await.ready.inj hlookup
    obtain ⟨number, batch, hashes, hbatch, hreply, hzip⟩ := hrow
    obtain rfl := Except.ok.inj (BatchReply.answered.inj hreply)
    have hbounds : (entry.start, entry.stop) = (9999, 9999) := by
      have hin : (entry.start, entry.stop) ∈
          publisherEnv.epochs.map fun entry => (entry.start, entry.stop) :=
        List.mem_map.mpr ⟨entry, List.mem_of_getElem? hentry, rfl⟩
      rw [publisherEnv_epochs] at hin
      exact List.mem_singleton.mp hin
    obtain ⟨hstart, hstop⟩ := Prod.mk.inj hbounds
    rw [hstart, hstop] at hbatch
    have hsingle : batch ∈ lookupBatches 9999 9999 := List.mem_of_getElem? hbatch
    rw [show lookupBatches 9999 9999 = [[9999]] by decide] at hsingle
    obtain rfl := List.mem_singleton.mp hsingle
    obtain rfl := List.mem_singleton.mp hzip
    rfl
  obtain ⟨parts, hsub, -, hrows, hblocks⟩ := import_sound publisherEnv 4
    (fun height => wireToDisplayHex (emptyBlock height).hash)
    (Cache.chained_empty : Cache.empty.Good) hnode
  exact ⟨parts, hsub, hrows, fun block hblock => (hblocks block hblock).1⟩

end Lightwalletd
