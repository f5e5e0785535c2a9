/-
What an epoch body is, and that it reads back.

A body written from rows is `bodyOf` of them, whatever is done with each block on
the way: the digests are taken over exactly the bytes that are served.  Reading
such a body gives the rows' payloads back, and the stored form of an epoch's
digests gives the digests back.
-/
import Lightwalletd.Proofs.Import
import Lightwalletd.Snapshot.Export

namespace Lightwalletd

/-! ### Writing

The writer visits the rows in order and stops at the first that does not fit or that the
callback refuses.  If it gets to the end, it has written their records.
-/

def recordsOf (rows : List (Nat × Bytes)) : Bytes :=
  rows.flatMap fun row => leBytes 4 row.2.length ++ row.2

/-- A body: its header, and one record for each row. -/
def bodyOf (chain : String) (start : Nat) (rows : List (Nat × Bytes)) : Bytes :=
  magic ++ [UInt8.ofNat (chainBytes chain).length] ++ chainBytes chain ++ leBytes 8 start
    ++ leBytes 4 rows.length ++ recordsOf rows

section

variable {σ : Type} {onBlock : σ → Nat → Bytes → Except SnapshotError σ}

theorem writeRecord_eq_ok {out block out' : Bytes} :
    writeRecord out block = .ok out' ↔
      block.length < 2 ^ 32 ∧ out' = out ++ (leBytes 4 block.length ++ block) := by
  unfold writeRecord
  by_cases h : block.length < 2 ^ 32
  · rw [if_pos h, Except.ok.injEq, and_iff_right h, List.append_assoc, eq_comm]
  · rw [if_neg h]
    exact ⟨nofun, fun hfits => absurd hfits.1 h⟩

/-- The visitor succeeds when every record fits and `onBlock` does on every row. -/
theorem writeRecords_eq_ok :
    ∀ (rows : List (Nat × Bytes)) (out : Bytes) (state : σ) (out' : Bytes) (state' : σ),
      writeRecords onBlock out state rows = .ok (out', state') ↔
        (∀ row ∈ rows, row.2.length < 2 ^ 32) ∧ out' = out ++ recordsOf rows ∧
          rows.foldlM (fun state row => onBlock state row.1 row.2) state = .ok state' := by
  intro rows
  induction rows with
  | nil =>
      intro out state out' state'
      simp [writeRecords, recordsOf, eq_comm, pure, Except.pure]
  | cons row rows ih =>
      obtain ⟨height, raw⟩ := row
      intro out state out' state'
      simp only [writeRecords, Except.bind_eq_ok, ih, writeRecord_eq_ok, List.foldlM_cons,
        List.forall_mem_cons]
      constructor
      · rintro ⟨_, ⟨hraw, rfl⟩, next, hnext, hrows, rfl, hfold⟩
        exact ⟨⟨hraw, hrows⟩, by simp [recordsOf], next, hnext, hfold⟩
      · rintro ⟨⟨hraw, hrows⟩, rfl, next, hnext, hfold⟩
        exact ⟨_, ⟨hraw, rfl⟩, next, hnext, hrows, by simp [recordsOf], hfold⟩

theorem bodyCount_eq_ok {start stop count : Nat} :
    bodyCount start stop = .ok count ↔ start ≤ stop ∧ stop - start + 1 ≤ u64Max ∧
      stop - start + 1 < 2 ^ 32 ∧ count = stop - start + 1 := by
  unfold bodyCount
  split
  · rename_i h
    simp only [Except.ok.injEq]
    constructor
    · rintro rfl
      exact ⟨h.1, h.2.1, h.2.2, rfl⟩
    · rintro ⟨-, -, -, rfl⟩
      rfl
  · rename_i h
    constructor
    · intro herr
      cases herr
    · rintro ⟨hle, hmax, hfits, -⟩
      exact absurd ⟨hle, hmax, hfits⟩ h

/-- A body is written when every height is there and everything fits. -/
structure Writable (cache : Cache) (chain : String) (start stop : Nat) : Prop where
  chain : validChain chain = true
  bounds : start ≤ stop
  fits : stop - start + 1 < 2 ^ 32
  whole : (cache.blocks.range start stop).length = stop - start + 1
  records : ∀ row ∈ cache.blocks.range start stop, row.2.length < 2 ^ 32

theorem writeBody_eq_ok {cache : Cache} {chain : String} {start stop : Nat} {out out' : Bytes}
    {state state' : σ} :
    writeBody onBlock cache chain start stop out state = .ok (out', state') ↔
      Writable cache chain start stop ∧
      (cache.blocks.range start stop).foldlM (fun state row => onBlock state row.1 row.2) state
        = .ok state' ∧
      out' = out ++ bodyOf chain start (cache.blocks.range start stop) := by
  have hheader : ∀ count header, writeHeader out chain start count = .ok header ↔
      validChain chain = true ∧ header = out ++ magic ++ [UInt8.ofNat (chainBytes chain).length]
        ++ chainBytes chain ++ leBytes 8 start ++ leBytes 4 count := by
    intro count header
    unfold writeHeader
    split
    · rename_i h
      simp [h, eq_comm]
    · rename_i h
      simp [h]
  simp only [writeBody, Except.bind_eq_ok, Except.ensure_eq_ok, Except.pure_eq_ok,
    bodyCount_eq_ok, hheader, Prod.exists, writeRecords_eq_ok]
  constructor
  · rintro ⟨_, ⟨hle, -, hfits, rfl⟩, _, ⟨hchain, rfl⟩, _, _, ⟨hrecords, rfl, hfold⟩, -, hwhole,
      heq⟩
    obtain ⟨rfl, rfl⟩ := Prod.mk.inj heq
    exact ⟨⟨hchain, hle, hfits, hwhole, hrecords⟩, hfold, by simp [bodyOf, hwhole]⟩
  · rintro ⟨⟨hchain, hle, hfits, hwhole, hrecords⟩, hfold, rfl⟩
    refine ⟨_, ⟨hle, ?_, hfits, rfl⟩, _, ⟨hchain, rfl⟩, _, _, ⟨hrecords, rfl, hfold⟩,
      (), hwhole, ?_⟩
    · simp only [u64Max]
      omega
    · simp [bodyOf, hwhole]

end

theorem writeEpoch_eq {cache : Cache} {chain : String} {index : Nat} {row : Bytes}
    {digest : EpochDigest} (hrow : cache.epochDigest index = some row)
    (hdecode : EpochDigest.decode row = some digest)
    (h : Writable cache chain digest.start digest.stop) :
    writeEpoch cache chain index
      = .ok (bodyOf chain digest.start (cache.blocks.range digest.start digest.stop)) := by
  have hfold : ∀ rows : List (Nat × Bytes),
      rows.foldlM (fun (_ : Unit) _ => (.ok () : Except SnapshotError Unit)) () = .ok () := by
    intro rows
    induction rows with
    | nil => rfl
    | cons row rows ih => exact ih
  simp only [writeEpoch, hrow, hdecode, Except.map_eq_ok]
  exact ⟨(_, ()), writeBody_eq_ok.mpr ⟨h, hfold _, rfl⟩, by simp⟩

/-! ### Digests

The digests come from the same visitor, with a callback that decodes each row and folds
it into the anchor.
-/

section

variable [Prost]

private theorem foldlM_anchorBlock :
    ∀ (rows : List (Nat × Bytes)) (folded out : Bytes),
      rows.foldlM (fun state row => anchorBlock state row.1 row.2) folded = .ok out ↔
        ∃ blocks : List CompactBlock, rows.map (fun row => Prost.decode row.2) = blocks.map .ok ∧
          rows.map (·.1) = blocks.map (·.height) ∧
          out = blocks.foldl (fun folded block => anchorUpdate folded block.height block.hash)
            folded := by
  intro rows
  induction rows with
  | nil =>
      intro folded out
      constructor
      · intro h
        exact ⟨[], rfl, rfl, (Except.ok.inj h).symm⟩
      · rintro ⟨blocks, hdecode, -, rfl⟩
        rw [List.map_eq_nil_iff.mp hdecode.symm]
        rfl
  | cons row rows ih =>
      obtain ⟨height, raw⟩ := row
      intro folded out
      have hblock : ∀ next, anchorBlock folded height raw = .ok next ↔
          ∃ block, Prost.decode raw = .ok block ∧ block.height = height ∧
            next = anchorUpdate folded height block.hash := by
        intro next
        simp only [anchorBlock, Except.bind_eq_ok, Except.mapError_eq_ok, Cache.decodeBlock,
          Except.ensure_eq_ok, Except.pure_eq_ok]
        constructor
        · rintro ⟨block, hdecode, -, hheight, rfl⟩
          exact ⟨block, hdecode, hheight, rfl⟩
        · rintro ⟨block, hdecode, hheight, rfl⟩
          exact ⟨block, hdecode, (), hheight, rfl⟩
      simp only [List.foldlM_cons, Except.bind_eq_ok, ih, hblock]
      constructor
      · rintro ⟨_, ⟨block, hdecode, rfl, rfl⟩, blocks, hmap, hheights, rfl⟩
        exact ⟨block :: blocks, by simp [hdecode, hmap], by simp [hheights], rfl⟩
      · rintro ⟨blocks, hmap, hheights, rfl⟩
        rcases blocks with _ | ⟨block, blocks⟩
        · simp at hmap
        simp only [List.map_cons, List.cons.injEq] at hmap hheights
        refine ⟨_, ⟨block, hmap.1, hheights.1.symm, rfl⟩, blocks, hmap.2, hheights.2, ?_⟩
        simp [hheights.1]

variable [Sha256]

/-- The digests of an epoch, from the rows of its heights. -/
theorem digestBody_eq_ok {cache : Cache} {chain : String} {start stop : Nat}
    {digest : EpochDigest} :
    digestBody cache chain start stop = .ok digest ↔ Writable cache chain start stop ∧
      ∃ blocks : List CompactBlock,
        (cache.blocks.range start stop).map (fun row => Prost.decode row.2) = blocks.map .ok ∧
        (cache.blocks.range start stop).map (·.1) = blocks.map (·.height) ∧
        digest = {
          start := start
          stop := stop
          bytes := (bodyOf chain start (cache.blocks.range start stop)).length
          content := Sha256.digest (bodyOf chain start (cache.blocks.range start stop))
          anchor := Sha256.digest (blocks.foldl
            (fun folded block => anchorUpdate folded block.height block.hash) []) } := by
  simp only [digestBody, Except.bind_eq_ok, Prod.exists, writeBody_eq_ok, foldlM_anchorBlock,
    Except.pure_eq_ok, digestWriterFinish, anchorFinish, List.nil_append]
  constructor
  · rintro ⟨_, _, ⟨hwritable, ⟨blocks, hdecode, hheights, rfl⟩, rfl⟩, rfl⟩
    exact ⟨hwritable, blocks, hdecode, hheights, rfl⟩
  · rintro ⟨hwritable, blocks, hdecode, hheights, rfl⟩
    exact ⟨_, _, ⟨hwritable, ⟨blocks, hdecode, hheights, rfl⟩, rfl⟩, rfl⟩

end

/-! ### Reading back -/

theorem cursorTake_append (body front rest : Bytes) {length : Nat} (h : front.length = length) :
    cursorTake body (front ++ rest) length = .ok (front, rest) := by
  subst h
  simp [cursorTake]

private theorem parseRecords_recordsOf (body : Bytes) :
    ∀ rows : List (Nat × Bytes), (∀ row ∈ rows, row.2.length < 2 ^ 32) →
      parseRecords body rows.length (recordsOf rows) = .ok (rows.map (·.2), []) := by
  intro rows
  induction rows with
  | nil =>
      intro _
      rfl
  | cons row rows ih =>
      intro hrows
      have hread : ofLeBytes (leBytes 4 row.2.length) = row.2.length :=
        ofLeBytes_leBytes_of_lt (Nat.lt_of_lt_of_eq (hrows row List.mem_cons_self) (by norm_num))
      have hrecords : recordsOf (row :: rows)
          = leBytes 4 row.2.length ++ (row.2 ++ recordsOf rows) := by
        simp [recordsOf]
      rw [List.length_cons, parseRecords, hrecords,
        cursorTake_append _ _ _ (leBytes_length 4 _), Except.ok_bind]
      simp only [hread]
      rw [cursorTake_append _ _ _ rfl, Except.ok_bind]
      simp only [ih fun r hr => hrows r (List.mem_cons_of_mem _ hr)]
      rfl

theorem parseChain_chainBytes (chain : String) : parseChain (chainBytes chain) = .ok chain := by
  have hbytes : (⟨(chainBytes chain).toArray⟩ : ByteArray) = chain.toByteArray := by
    simp [chainBytes]
  have hvalid : chain.toByteArray.IsValidUTF8 := chain.isValidUTF8
  rw [parseChain, hbytes, String.fromUTF8?, dif_pos hvalid]
  rfl

/-- **A written body reads back.** -/
theorem parseEpoch_bodyOf {chain : String} {start : Nat} {rows : List (Nat × Bytes)}
    (hchain : validChain chain = true) (hstart : start ≤ u64Max) (hcount : rows.length < 2 ^ 32)
    (hrows : ∀ row ∈ rows, row.2.length < 2 ^ 32) :
    parseEpoch (bodyOf chain start rows)
      = .ok ({ chain := chain, start := start, count := rows.length }, rows.map (·.2)) := by
  have hlength : ofLeBytes [UInt8.ofNat (chainBytes chain).length] = (chainBytes chain).length := by
    have hle : (chainBytes chain).length ≤ 255 := by
      simp only [validChain, Bool.and_eq_true, decide_eq_true_eq] at hchain
      exact hchain.2
    simp only [ofLeBytes, UInt8.toNat_ofNat']
    omega
  have hstart' : ofLeBytes (leBytes 8 start) = start := by
    refine ofLeBytes_leBytes_of_lt ?_
    simp only [u64Max] at hstart
    omega
  have hcount' : ofLeBytes (leBytes 4 rows.length) = rows.length :=
    ofLeBytes_leBytes_of_lt (Nat.lt_of_lt_of_eq hcount (by norm_num))
  have hbody : bodyOf chain start rows = magic ++ ([UInt8.ofNat (chainBytes chain).length] ++
      (chainBytes chain ++ (leBytes 8 start ++ (leBytes 4 rows.length ++ recordsOf rows)))) := by
    simp [bodyOf]
  unfold parseEpoch
  rw [hbody, cursorTake_append _ _ _ rfl, Except.ok_bind]
  simp only
  rw [Except.ensure_pos trivial, Except.ok_bind,
    cursorTake_append _ _ _ (List.length_singleton), Except.ok_bind]
  simp only [hlength]
  rw [cursorTake_append _ _ _ rfl, Except.ok_bind]
  simp only
  rw [parseChain_chainBytes, Except.ok_bind, cursorTake_append _ _ _ (leBytes_length 8 _),
    Except.ok_bind]
  simp only
  rw [cursorTake_append _ _ _ (leBytes_length 4 _), Except.ok_bind]
  simp only [hcount', parseRecords_recordsOf _ rows hrows, Except.ok_bind, hstart']
  rfl

/-- **The stored form of an epoch's digests reads back**, its length as a word. -/
theorem EpochDigest.decode_encode {d : EpochDigest} (hstart : d.start ≤ u64Max)
    (hstop : d.stop ≤ u64Max) (hcontent : d.content.length = 32) (hanchor : d.anchor.length = 32) :
    EpochDigest.decode d.encode = some { d with bytes := d.bytes % 256 ^ 8 } := by
  have hread : ∀ n, n ≤ u64Max → ofLeBytes (leBytes 8 n) = n := by
    intro n hn
    refine ofLeBytes_leBytes_of_lt ?_
    simp only [u64Max] at hn
    omega
  have hlen : d.encode.length = EpochDigest.encodedLen := by
    simp [EpochDigest.encode, hcontent, hanchor, EpochDigest.encodedLen]
  have hencode : d.encode = leBytes 8 d.start ++ (leBytes 8 d.stop ++
      (leBytes 8 d.bytes ++ (d.content ++ d.anchor))) := by
    simp [EpochDigest.encode]
  have hdrop8 : d.encode.drop 8 = leBytes 8 d.stop ++
      (leBytes 8 d.bytes ++ (d.content ++ d.anchor)) := by
    rw [hencode, List.drop_left' (leBytes_length 8 _)]
  have hdrop16 : d.encode.drop 16 = leBytes 8 d.bytes ++ (d.content ++ d.anchor) := by
    rw [show 16 = 8 + 8 from rfl, ← List.drop_drop, hdrop8, List.drop_left' (leBytes_length 8 _)]
  have hdrop24 : d.encode.drop 24 = d.content ++ d.anchor := by
    rw [show 24 = 16 + 8 from rfl, ← List.drop_drop, hdrop16, List.drop_left' (leBytes_length 8 _)]
  have hdrop56 : d.encode.drop 56 = d.anchor := by
    rw [show 56 = 24 + 32 from rfl, ← List.drop_drop, hdrop24, List.drop_left' hcontent]
  unfold EpochDigest.decode
  rw [if_pos hlen, hdrop8, hdrop16, hdrop24, hdrop56, hencode]
  rw [List.take_left' (leBytes_length 8 _), List.take_left' (leBytes_length 8 _),
    List.take_left' (leBytes_length 8 _), List.take_left' hcontent,
    List.take_of_length_le (Nat.le_of_eq hanchor), hread _ hstart, hread _ hstop,
    ofLeBytes_leBytes]

end Lightwalletd
