/-
A download from a publisher that goes on living, over a network that does not.

The publisher ingests, rolls back and walks while its epochs are fetched, each request
reads its cache in three transactions, slots run out, and the connection may be lost
at any byte.  What it has published does not change as long as no truncation reaches
into it: an append leaves the rows of a complete epoch alone, and so does a truncation
above it.  So a response is either the whole body that the manifest lists, or it fails
in a way that is worth another attempt.
-/
import Lightwalletd.Proofs.Publish
import Lightwalletd.Snapshot.Http
import Lightwalletd.Snapshot.Serve

namespace Lightwalletd

/-! ### The chunks of a body

The writer buffers what it is given and hands over a chunk when the buffer is full.  A
client that stops reading has the front of the body.
-/

namespace ChunkWriter

/-- The writer has been given `written`, of which less than a chunk is not handed over. -/
structure Holds (written : Bytes) (writer : ChunkWriter) : Prop where
  whole : writer.sent.flatten ++ writer.buffer = written
  chunks : ∀ chunk ∈ writer.sent, chunkSize ≤ chunk.length
  small : writer.buffer.length < chunkSize

private theorem holds_new : Holds [] {} := ⟨rfl, nofun, by decide⟩

/-- A buffer is handed over as it is, or the client has stopped reading. -/
theorem send_cases (reading : Nat → Bool) (writer : ChunkWriter) :
    writer.send reading
        = (if writer.buffer = [] then writer else { sent := writer.sent ++ [writer.buffer] },
          .ok ()) ∨
      (∃ n, reading n = false) ∧
        ∃ error, writer.send reading = ({ sent := writer.sent }, .error error) := by
  unfold send
  split
  · exact Or.inl rfl
  · rcases hreading : reading writer.sent.length with _ | _
    · exact Or.inr ⟨⟨_, hreading⟩, _, if_neg Bool.false_ne_true⟩
    · exact Or.inl (if_pos rfl)

theorem Holds.write (reading : Nat → Bool) {written : Bytes} {writer : ChunkWriter}
    (h : writer.Holds written) (piece : Bytes) :
    (∃ writer', writer.write reading piece = (writer', .ok ()) ∧ writer'.Holds (written ++ piece)) ∨
      (∃ n, reading n = false) ∧ ∃ writer' error,
        writer.write reading piece = (writer', .error error) ∧ writer'.sent = writer.sent := by
  have hwhole : writer.sent.flatten ++ (writer.buffer ++ piece) = written ++ piece := by
    rw [← List.append_assoc, h.whole]
  unfold ChunkWriter.write
  by_cases hfull : chunkSize ≤ (writer.buffer ++ piece).length
  · have hne : writer.buffer ++ piece ≠ [] := by
      intro hnil
      rw [hnil] at hfull
      exact absurd hfull (by decide)
    simp only [if_pos hfull]
    rcases send_cases reading { writer with buffer := writer.buffer ++ piece } with
      hsend | ⟨hstopped, error, hsend⟩
    · rw [if_neg hne] at hsend
      refine Or.inl ⟨_, hsend, ?_, ?_, Nat.lt_of_lt_of_le Nat.zero_lt_one (by decide)⟩
      · rw [List.flatten_append, List.flatten_singleton, List.append_nil]
        exact hwhole
      · intro chunk hchunk
        rcases List.mem_append.mp hchunk with hold | hnew
        · exact h.chunks chunk hold
        · obtain rfl := List.mem_singleton.mp hnew
          exact hfull
    · exact Or.inr ⟨hstopped, _, error, hsend, rfl⟩
  · simp only [if_neg hfull]
    exact Or.inl ⟨_, rfl, hwhole, h.chunks, Nat.lt_of_not_le hfull⟩

/-- A series of writes: what has been handed over is the front of what was written. -/
theorem Holds.writeAll (reading : Nat → Bool) {written : Bytes} {writer : ChunkWriter}
    (h : writer.Holds written) (pieces : List Bytes) :
    (∃ writer', writer.writeAll reading pieces = (writer', .ok ()) ∧
        writer'.Holds (written ++ pieces.flatten)) ∨
      (∃ n, reading n = false) ∧ ∃ writer' error,
        writer.writeAll reading pieces = (writer', .error error) ∧
          writer'.sent.flatten <+: written ++ pieces.flatten := by
  induction pieces generalizing written writer with
  | nil =>
      refine Or.inl ⟨writer, rfl, ?_⟩
      rw [List.flatten_nil, List.append_nil]
      exact h
  | cons piece pieces ih =>
      rw [List.flatten_cons]
      rcases h.write reading piece with ⟨next, hwrite, hnext⟩ | ⟨hstopped, next, error,
        hwrite, hsent⟩
      · simp only [ChunkWriter.writeAll, hwrite, ← List.append_assoc]
        exact ih hnext
      · refine Or.inr ⟨hstopped, next, error, ?_, ?_⟩
        · rw [ChunkWriter.writeAll, hwrite]
        · rw [hsent, ← h.whole, List.append_assoc]
          exact List.prefix_append _ _

/-- The last buffer: of all the chunks none is empty, and each but the last is whole. -/
theorem Holds.flush (reading : Nat → Bool) {written : Bytes} {writer : ChunkWriter}
    (h : writer.Holds written) :
    (∃ writer', writer.send reading = (writer', .ok ()) ∧ writer'.sent.flatten = written ∧
        (∀ chunk ∈ writer'.sent, chunk ≠ []) ∧
        ∀ chunk ∈ writer'.sent.dropLast, chunkSize ≤ chunk.length) ∨
      (∃ n, reading n = false) ∧ ∃ writer' error, writer.send reading = (writer', .error error) ∧
        writer'.sent.flatten <+: written := by
  have hfull : ∀ chunk ∈ writer.sent, chunk ≠ [] := by
    rintro chunk hchunk rfl
    exact absurd (h.chunks [] hchunk) (by decide)
  rcases send_cases reading writer with hsend | ⟨hstopped, error, hsend⟩
  · left
    by_cases hempty : writer.buffer = []
    · rw [if_pos hempty] at hsend
      refine ⟨_, hsend, ?_, hfull, fun chunk hchunk =>
        h.chunks chunk (List.mem_of_mem_dropLast hchunk)⟩
      rw [← h.whole, hempty, List.append_nil]
    · rw [if_neg hempty] at hsend
      refine ⟨_, hsend, ?_, ?_, ?_⟩
      · rw [← h.whole, List.flatten_append, List.flatten_singleton]
      · intro chunk hchunk
        rcases List.mem_append.mp hchunk with hold | hnew
        · exact hfull chunk hold
        · obtain rfl := List.mem_singleton.mp hnew
          exact hempty
      · intro chunk hchunk
        rw [List.dropLast_concat] at hchunk
        exact h.chunks chunk hchunk
  · refine Or.inr ⟨hstopped, _, error, hsend, ?_⟩
    rw [← h.whole]
    exact List.prefix_append _ _

end ChunkWriter

private theorem recordsPieces_eq {rows : List (Nat × Bytes)}
    (h : ∀ row ∈ rows, row.2.length < 2 ^ 32) :
    ∃ pieces, recordsPieces rows = (pieces, .ok ()) ∧ pieces.flatten = recordsOf rows := by
  induction rows with
  | nil => exact ⟨[], rfl, rfl⟩
  | cons row rows ih =>
      obtain ⟨height, raw⟩ := row
      obtain ⟨pieces, hpieces, hflatten⟩ := ih fun row hrow => h row (List.mem_cons_of_mem _ hrow)
      have hraw : recordPieces raw = .ok [leBytes 4 raw.length, raw] :=
        if_pos (h (height, raw) List.mem_cons_self)
      refine ⟨[leBytes 4 raw.length, raw] ++ pieces, ?_, ?_⟩
      · simp only [recordsPieces, hraw, hpieces]
      · rw [List.flatten_append, hflatten]
        simp [recordsOf]

/-- The writes of a body that can be written are its bytes. -/
private theorem bodyPieces_eq {cache : Cache} {chain : String} {start stop : Nat}
    (h : Writable cache chain start stop) :
    ∃ pieces, bodyPieces cache chain start stop = (pieces, .ok ()) ∧
      pieces.flatten = bodyOf chain start (cache.blocks.range start stop) := by
  have hcount : bodyCount start stop = .ok (stop - start + 1) := by
    refine bodyCount_eq_ok.mpr ⟨h.bounds, ?_, h.fits, rfl⟩
    have := h.fits
    simp only [u64Max]
    omega
  obtain ⟨records, hrecords, hflatten⟩ := recordsPieces_eq h.records
  simp only [bodyPieces, hcount, headerPieces, h.chain, if_true, hrecords, h.whole]
  refine ⟨_, rfl, ?_⟩
  rw [List.flatten_append, hflatten]
  simp [bodyOf, h.whole]

/-- An export hands over the front of the body, and to a client that reads on all of it. -/
theorem exportEpoch_cases {reads : EpochReads} {chain : String} {index : Nat} {pieces : List Bytes}
    (hpieces : epochPieces reads chain index = (pieces, .ok ())) (reading : Nat → Bool) :
    ∃ chunks finished, exportEpoch reading reads chain index = (chunks, finished) ∧
      chunks.flatten <+: pieces.flatten ∧
      ((∀ n, reading n = true) → finished = true ∧ chunks.flatten = pieces.flatten ∧
        (∀ chunk ∈ chunks, chunk ≠ []) ∧ ∀ chunk ∈ chunks.dropLast, chunkSize ≤ chunk.length) := by
  unfold exportEpoch
  rw [hpieces]
  rcases ChunkWriter.holds_new.writeAll reading pieces with
    ⟨writer, hwrites, hholds⟩ | ⟨⟨n, hstopped⟩, writer, error, hwrites, hfront⟩
  · simp only [hwrites]
    rcases hholds.flush reading with
      ⟨last, hflush, hwhole, hsizes⟩ | ⟨⟨n, hstopped⟩, last, error, hflush, hfront⟩
    · rw [hflush]
      refine ⟨_, _, rfl, ?_, fun _ => ⟨rfl, hwhole, hsizes⟩⟩
      rw [hwhole]
      exact List.prefix_refl _
    · rw [hflush]
      refine ⟨_, _, rfl, hfront, fun hreading => ?_⟩
      rw [hreading n] at hstopped
      cases hstopped
  · simp only [hwrites]
    refine ⟨_, _, rfl, hfront, fun hreading => ?_⟩
    rw [hreading n] at hstopped
    cases hstopped

section

/-! ### What a publisher keeps

Everything up to a height that is held stays as it is under an append, a walk, and a
truncation above it: the rows, the digests of its epochs, and with them what a manifest
says of them. -/

/-- What is published up to `stop` in the one is so in the other, once `stop` is held. -/
structure Keeps (stop : Nat) (cache cache' : Cache) : Prop where
  digest : ∀ index row, index ≤ u64Max → epochLastHeight index ≤ stop →
    cache.epochDigest index = some row → cache'.epochDigest index = some row
  rows : ∀ value, (stop, value) ∈ cache.blocks.rows →
    cache'.blocks.rows.filter (fun row => row.1 ≤ stop)
      = cache.blocks.rows.filter (fun row => row.1 ≤ stop)

variable {chain : String} {stop : Nat} {cache cache' later : Cache}

theorem Keeps.refl : Keeps stop cache cache :=
  ⟨fun _ _ _ _ h => h, fun _ _ => rfl⟩

/-- A row up to `stop` is in both or in neither. -/
theorem Keeps.mem_iff (h : Keeps stop cache cache') {value : Bytes}
    (hstop : (stop, value) ∈ cache.blocks.rows) {row : Nat × Bytes} (hle : row.1 ≤ stop) :
    row ∈ cache'.blocks.rows ↔ row ∈ cache.blocks.rows := by
  have hrow := congrArg (row ∈ ·) (h.rows value hstop)
  simpa [List.mem_filter, hle] using hrow

theorem Keeps.trans (h : Keeps stop cache later) (h' : Keeps stop later cache') :
    Keeps stop cache cache' := by
  refine ⟨fun index row hindex hlast hrow => h'.digest index row hindex hlast
    (h.digest index row hindex hlast hrow), fun value hstop => ?_⟩
  rw [h'.rows value ((h.mem_iff hstop (Nat.le_refl _)).mpr hstop), h.rows value hstop]

theorem Keeps.get_eq (h : Keeps stop cache cache') {value : Bytes}
    (hstop : (stop, value) ∈ cache.blocks.rows) {height : Nat} (hle : height ≤ stop) :
    cache'.blocks.get height = cache.blocks.get height := by
  refine Option.ext fun bytes => ?_
  rw [Table.get_eq_some_iff, Table.get_eq_some_iff]
  exact h.mem_iff hstop hle

theorem Keeps.range_eq (h : Keeps stop cache cache') {value : Bytes}
    (hstop : (stop, value) ∈ cache.blocks.rows) (low : Nat) :
    cache'.blocks.range low stop = cache.blocks.range low stop := by
  have hboth : ∀ rows : List (Nat × Bytes),
      rows.filter (fun row => low ≤ row.1 && row.1 ≤ stop)
        = (rows.filter fun row => row.1 ≤ stop).filter fun row => low ≤ row.1 := by
    intro rows
    rw [List.filter_filter]
  show cache'.blocks.rows.filter _ = cache.blocks.rows.filter _
  rw [hboth, hboth, h.rows value hstop]

theorem Keeps.first (h : Keeps stop cache cache') {value : Bytes}
    (hstop : (stop, value) ∈ cache.blocks.rows) {low : Nat × Bytes}
    (hfirst : cache.blocks.first = some low) : cache'.blocks.first = some low := by
  have hle := Table.first_le hstop hfirst
  have hin := (h.mem_iff hstop hle).mpr (Table.first_mem hfirst)
  rcases hnext : cache'.blocks.first with _ | next
  · rw [Table.first_eq_none_iff.mp hnext] at hin
    cases hin
  have hnextLe := Table.first_le hin hnext
  have hold := (h.mem_iff hstop (hnextLe.trans hle)).mp (Table.first_mem hnext)
  have hkey : next.1 = low.1 := Nat.le_antisymm hnextLe (Table.first_le hold hfirst)
  have hget := Table.get_eq_some_iff.mpr hold
  rw [hkey, Table.get_eq_some_iff.mpr (Table.first_mem hfirst)] at hget
  rw [Prod.ext hkey (Option.some.inj hget).symm]

theorem Writable.congr {low high : Nat} (h : Writable cache chain low high)
    (hrows : cache'.blocks.range low high = cache.blocks.range low high) :
    Writable cache' chain low high := by
  refine ⟨h.chain, h.bounds, h.fits, ?_, ?_⟩
  · rw [hrows]
    exact h.whole
  · rw [hrows]
    exact h.records

private theorem keeps_truncated (base : Option Nat) {cut : Nat} (hmax : cut ≤ u64Max)
    (habove : stop < cut) :
    Keeps stop cache (cache.truncated cut base) := by
  refine ⟨fun index row hindex hlast hrow => ?_, fun _ _ => ?_⟩
  · rw [Cache.truncated_epochDigest cache base hmax hindex, if_pos (by omega)]
    exact hrow
  · show (cache.blocks.rows.filter _).filter _ = _
    rw [List.filter_filter]
    refine List.filter_congr fun row _ => ?_
    by_cases hle : row.1 ≤ stop
    · have hlt : row.1 < cut := by omega
      simp [hle, hlt]
    · simp [hle]

variable [Prost]

theorem Cache.Appended.keeps {blocks : List CompactBlock} {base : Option Nat} {next : Nat}
    (happ : Cache.Appended cache blocks base next cache') : Keeps stop cache cache' := by
  refine ⟨fun index row _ _ hrow => by rw [happ.epochDigest, hrow], fun value hstop => ?_⟩
  have hnew : (blocks.map Cache.rowOf).filter (fun row => row.1 ≤ stop) = [] := by
    rw [List.filter_eq_nil_iff]
    intro new hnew
    have hout : ¬ new.1 ≤ stop := Nat.not_le.mpr (happ.above hstop new hnew)
    simp [hout]
  rw [happ.rows, List.filter_append, hnew, List.append_nil]

theorem keeps_of_cut (op : StoreOp) (hop : op.Allowed cache) {cut : Nat} (hcut : op.cut = some cut)
    (habove : stop < cut) : Keeps stop cache (op.apply cache).1 := by
  rcases StoreOp.apply_cases hop with
    heq | ⟨blocks, base, start, happ, -⟩ | ⟨cut', base, hcut', hmax, -, heq⟩ | ⟨index, value, rfl⟩
  · rw [heq]
    exact Keeps.refl
  · exact happ.keeps
  · obtain rfl := Option.some.inj (hcut.symm.trans hcut')
    rw [heq]
    exact keeps_truncated base hmax habove
  · cases hcut

variable [Sha256]

/-- Where a publisher may be later, no truncation having reached down to `stop`. -/
inductive Later (chain : String) (stop : Nat) (cache : Cache) : Cache → Prop
  | now : Later chain stop cache cache
  | append {later : Cache} (h : Later chain stop cache later) (blocks : List CompactBlock)
      (hchain : blocks.IsChain Extends)
      (hjoin : ∀ row tip first, later.blocks.last = some row → Prost.decode row.2 = .ok tip →
        blocks.head? = some first → Extends tip first) :
      Later chain stop cache (later.addBatch blocks).1
  | reorg {later : Cache} (h : Later chain stop cache later) (height : Nat)
      (hheight : height < u64Max) (habove : stop ≤ height) :
      Later chain stop cache (later.reorg height).1
  | truncateFrom {later : Cache} (h : Later chain stop cache later) (height : Nat)
      (hheight : height < u64Max) (habove : stop < height) :
      Later chain stop cache (later.truncateFrom height).1
  | digest {later : Cache} (h : Later chain stop cache later) :
      Later chain stop cache (storeNextEpochDigest later chain).1

/-- The walk: an epoch that has its digests gets the same ones, if it gets any. -/
theorem Publishes.keeps_walk (h : Publishes chain cache) :
    Keeps stop cache (storeNextEpochDigest cache chain).1 := by
  rcases storeNextEpochDigest_cases cache chain with
    heq | ⟨base, tip, index, digest, hrange, -, hlast, -, hdigest, heq⟩
  · rw [heq]
    exact Keeps.refl
  obtain ⟨v, w, hfirst, htop⟩ := Cache.range_eq hrange
  have hindex : index ≤ u64Max :=
    index_le_of_last_lt (Nat.le_of_lt (h.store.rows_below _ (Table.last_mem htop))) hlast
  rw [heq]
  refine ⟨?_, fun _ _ => by rw [Cache.setEpochDigest_eq]⟩
  intro i row hi _ hrow
  rw [Cache.setEpochDigest_epochDigest cache digest.encode hindex hi]
  by_cases hnew : i = index
  · obtain ⟨low, found, hlow, -, rfl, hfound⟩ := h.rows i row hi hrow
    obtain rfl := Option.some.inj (hlow.symm.trans hfirst)
    rw [hnew, hdigest] at hfound
    rw [if_pos hnew, Except.ok.inj hfound]
  · rw [if_neg hnew]
    exact hrow

theorem Later.reachable (h : PublisherReachable chain cache)
    (hlater : Later chain stop cache later) :
    PublisherReachable chain later := by
  induction hlater with
  | now => exact h
  | append _ blocks hchain hjoin ih => exact ih.append blocks hchain hjoin
  | reorg _ height hheight _ ih => exact ih.reorg height hheight
  | truncateFrom _ height hheight _ ih => exact ih.truncateFrom height hheight
  | digest _ ih => exact ih.digest

theorem Later.keeps (h : PublisherReachable chain cache) (hlater : Later chain stop cache later) :
    Keeps stop cache later := by
  induction hlater with
  | now => exact Keeps.refl
  | @append later _ blocks _ _ ih =>
      refine ih.trans ?_
      rcases later.append_cases (blocks.map .ok) none with
        ⟨e, heq⟩ | ⟨-, heq⟩ | ⟨blocks', start, cache', -, heq, happ⟩
      · rw [Cache.addBatch, heq]
        exact Keeps.refl
      · rw [Cache.addBatch, heq]
        exact Keeps.refl
      · rw [Cache.addBatch, heq]
        exact happ.keeps
  | reorg _ height hheight habove ih =>
      exact ih.trans (keeps_of_cut (.reorg height) hheight rfl (Nat.lt_succ_of_le habove))
  | truncateFrom _ height hheight habove ih =>
      exact ih.trans (keeps_of_cut (.truncateFrom height) hheight rfl habove)
  | digest hlater ih => exact ih.trans (hlater.reachable h).publishes.keeps_walk

/-! ### A response -/

theorem PublishedEntry.row (hpub : Publishes chain cache)
    (hsize : ∀ index body, writeEpoch cache chain index = .ok body → body.length ≤ maxEpochBytes)
    {base tip : Nat} (hrange : cache.range = some (base, tip)) {entry : EpochEntry}
    (h : PublishedEntry chain cache base entry) :
    ∃ row digest, cache.epochDigest entry.index = some row ∧ EpochDigest.decode row = some digest ∧
      digest.start = entry.start ∧ digest.stop = entry.stop ∧ digest.bytes = entry.bytes := by
  rcases hrow : cache.epochDigest entry.index with _ | row
  · have hbody := h.body
    simp only [writeEpoch, hrow] at hbody
    cases hbody
  obtain ⟨v, w, hfirst, -⟩ := Cache.range_eq hrange
  obtain ⟨digest, hdecode, hpublished⟩ := hpub.entry hsize hfirst h.index.2 hrow
  have hstart : digest.start = entry.start := hpublished.start.trans h.start.symm
  have hstop : digest.stop = entry.stop := hpublished.stop.trans h.stop.symm
  refine ⟨row, digest, rfl, hdecode, hstart, hstop, ?_⟩
  have hbytes : digest.bytes
      = (bodyOf chain digest.start (cache.blocks.range digest.start digest.stop)).length :=
    hpublished.bytes
  rw [hbytes, h.bytes, hstart, hstop]

/-- The reads of a request that comes later. -/
structure EpochReads.After (chain : String) (stop : Nat) (cache : Cache) (reads : EpochReads) :
    Prop where
  headers : Later chain stop cache reads.headers
  digest : Later chain stop cache reads.digest
  rows : Later chain stop cache reads.rows

/-- The response for a published epoch, whatever the publisher has done since. -/
theorem epochRoute_published (h : PublisherReachable chain cache)
    (hsize : ∀ index body, writeEpoch cache chain index = .ok body → body.length ≤ maxEpochBytes)
    {base tip : Nat} (hrange : cache.range = some (base, tip)) {entry : EpochEntry}
    (hentry : PublishedEntry chain cache base entry) {reads : EpochReads}
    (hreads : reads.After chain entry.stop cache) (slotFree : Bool) (reading : Nat → Bool) :
    (slotFree = false ∧ epochRoute slotFree reading reads chain entry.index = .status 429) ∨
      ∃ chunks finished,
        epochRoute slotFree reading reads chain entry.index = .body entry.bytes chunks finished ∧
        chunks.flatten
          <+: bodyOf chain entry.start (cache.blocks.range entry.start entry.stop) ∧
        ((∀ n, reading n = true) → finished = true ∧
          chunks.flatten
            = bodyOf chain entry.start (cache.blocks.range entry.start entry.stop)) := by
  obtain ⟨row, digest, hrow, hdecode, hstart, hstop, hbytes⟩ :=
    hentry.row h.publishes hsize hrange
  have hlast : epochLastHeight entry.index ≤ entry.stop := Nat.le_of_eq hentry.stop.symm
  have hheaders := (hreads.headers.keeps h).digest _ _ hentry.index.2 hlast hrow
  have hdigest := (hreads.digest.keeps h).digest _ _ hentry.index.2 hlast hrow
  obtain ⟨value, hheld⟩ := hentry.writable.stop_held
  have hrows := (hreads.rows.keeps h).range_eq hheld entry.start
  obtain ⟨pieces, hpieces, hflatten⟩ := bodyPieces_eq (hentry.writable.congr hrows)
  rw [hrows] at hflatten
  have hexport : epochPieces reads chain entry.index = (pieces, .ok ()) := by
    simp only [epochPieces, hdigest, hdecode, hstart, hstop, hpieces]
  obtain ⟨chunks, finished, hchunks, hfront, hall⟩ := exportEpoch_cases hexport reading
  rw [hflatten] at hfront hall
  unfold epochRoute
  simp only [hheaders, hdecode]
  rcases slotFree with _ | _
  · exact Or.inl ⟨rfl, if_neg Bool.false_ne_true⟩
  · refine Or.inr ⟨chunks, finished, ?_, hfront, fun hreading => ?_⟩
    · rw [if_pos rfl, hchunks, hbytes]
    · exact ⟨(hall hreading).1, (hall hreading).2.1⟩

/-! ### An answer

An attempt may break off anywhere.  What arrives whole is the body the manifest lists,
and anything else is worth another attempt.
-/

/-- What the network lets a client see of a response: nothing, the refusal, the whole
body cut into pieces of its own, or the front of it. -/
inductive EpochResponse.Seen (reading : Nat → Bool) : EpochResponse → HttpAnswer → Prop
  | lost (response : EpochResponse) (error : HttpError) (hstatus : error.status = none) :
      Seen reading response (.failed error)
  | status (code : Nat) (refusal : String) (pieces : List Bytes) (cut : Option HttpError) :
      Seen reading (.status code) (.response code refusal pieces cut)
  | whole (length : Nat) (chunks : List Bytes) (finished : Bool) (refusal : String)
      (pieces : List Bytes) (hreading : ∀ n, reading n = true)
      (hall : pieces.flatten = chunks.flatten) :
      Seen reading (.body length chunks finished) (.response 200 refusal pieces none)
  | cut (length : Nat) (chunks : List Bytes) (finished : Bool) (refusal : String)
      (pieces : List Bytes) (error : HttpError) (hstatus : error.status = none)
      (hfront : pieces.flatten <+: chunks.flatten) :
      Seen reading (.body length chunks finished) (.response 200 refusal pieces (some error))

/-- What a request for epoch `index` may see of a publisher that was at `cache`. -/
def FromLater (chain : String) (stop : Nat) (cache : Cache) (index : Nat) (answer : HttpAnswer) :
    Prop :=
  ∃ slotFree reading reads, EpochReads.After chain stop cache reads ∧
    (epochRoute slotFree reading reads chain index).Seen reading answer

omit [Prost] [Sha256] in
def HttpAnswer.Whole (answer : HttpAnswer) : Prop :=
  ∃ refusal pieces, answer = .response 200 refusal pieces none

omit [Prost] [Sha256] in
theorem readCapped_eq {maxBytes : Nat} {tooLong : SnapshotError} {cut : Option HttpError} :
    ∀ (pieces : List Bytes) (body : Bytes), body.length + pieces.flatten.length ≤ maxBytes →
      readCapped maxBytes tooLong cut body pieces
        = cut.elim (.ok (body ++ pieces.flatten)) fun error => .error (.http error) := by
  intro pieces
  induction pieces with
  | nil =>
      intro body _
      rcases cut with _ | error
      · rw [List.flatten_nil, List.append_nil]
        rfl
      · rfl
  | cons piece pieces ih =>
      intro body hfits
      rw [List.flatten_cons, List.length_append] at hfits
      rw [readCapped, if_neg (by omega), ih _ (by rw [List.length_append]; omega),
        List.flatten_cons, List.append_assoc]

/-- An answer of the publisher is the body its manifest lists, or worth another attempt. -/
theorem fetchEpoch_published (h : PublisherReachable chain cache)
    (hsize : ∀ index body, writeEpoch cache chain index = .ok body → body.length ≤ maxEpochBytes)
    {base tip : Nat} (hrange : cache.range = some (base, tip)) {entry : EpochEntry}
    (hentry : PublishedEntry chain cache base entry) {answer : HttpAnswer}
    (hanswer : FromLater chain entry.stop cache entry.index answer) :
    HttpEpochSource.fetchEpoch answer entry.index entry.bytes
        = .ok (bodyOf chain entry.start (cache.blocks.range entry.start entry.stop)) ∨
      (¬ answer.Whole ∧ ∃ error,
        HttpEpochSource.fetchEpoch answer entry.index entry.bytes = .error error ∧
          HttpEpochSource.isWorthRetrying error = true) := by
  obtain ⟨slotFree, reading, reads, hreads, hseen⟩ := hanswer
  have hroute := epochRoute_published h hsize hrange hentry hreads slotFree reading
  have hbytes := hentry.bytes
  generalize epochRoute slotFree reading reads chain entry.index = response at hseen hroute
  unfold HttpEpochSource.fetchEpoch
  cases hseen with
  | lost _ error hstatus =>
      refine Or.inr ⟨?_, .http error, rfl, by simp [HttpEpochSource.isWorthRetrying, hstatus]⟩
      rintro ⟨refusal, pieces, hanswer⟩
      cases hanswer
  | status code refusal pieces cut =>
      rcases hroute with ⟨-, hcode⟩ | ⟨chunks, finished, hbody, -⟩
      · obtain rfl := EpochResponse.status.inj hcode
        refine Or.inr ⟨?_, .http ⟨some 429, refusal⟩, rfl, rfl⟩
        rintro ⟨refusal', pieces', hanswer⟩
        cases hanswer
      · cases hbody
  | whole length chunks finished refusal pieces hreading hall =>
      rcases hroute with ⟨-, hcode⟩ | ⟨chunks', finished', hbody, -, hwhole⟩
      · cases hcode
      · obtain ⟨rfl, rfl, rfl⟩ := EpochResponse.body.inj hbody
        left
        have hflatten := hall.trans (hwhole hreading).2
        rw [getCapped, if_neg (by decide),
          readCapped_eq _ _ (by rw [hflatten, hbytes]; simp), hflatten]
        rfl
  | cut length chunks finished refusal pieces error hstatus hfront =>
      rcases hroute with ⟨-, hcode⟩ | ⟨chunks', finished', hbody, hfront', -⟩
      · cases hcode
      · obtain ⟨rfl, rfl, rfl⟩ := EpochResponse.body.inj hbody
        have hlength := (hfront.trans hfront').length_le
        refine Or.inr ⟨?_, .http error, ?_, by simp [HttpEpochSource.isWorthRetrying, hstatus]⟩
        · rintro ⟨refusal', pieces', hanswer⟩
          cases hanswer
        · rw [getCapped, if_neg (by decide),
            readCapped_eq _ _ (by rw [hbytes]; simpa using hlength)]
          rfl

omit [Prost] [Sha256] in
/-- There are three attempts at most, two seconds and then four between them. -/
theorem epoch_pauses (answers : Nat → HttpAnswer) (index maxBytes : Nat) :
    (HttpEpochSource.epoch answers index maxBytes).2 <+: [2, 4] := by
  have hpauses : ∃ n ≤ 2, (HttpEpochSource.epoch answers index maxBytes).2
      = (List.range n).map fun i => 2 * 2 ^ i := retry_pauses
  obtain ⟨n, hn, heq⟩ := hpauses
  rw [heq]
  obtain rfl | rfl | rfl : n = 0 ∨ n = 1 ∨ n = 2 := by omega
  · exact List.nil_prefix
  · exact ⟨[4], rfl⟩
  · exact List.prefix_refl _

/-- What comes of the attempts: the body the manifest lists, if anything. -/
theorem epoch_published (h : PublisherReachable chain cache)
    (hsize : ∀ index body, writeEpoch cache chain index = .ok body → body.length ≤ maxEpochBytes)
    {base tip : Nat} (hrange : cache.range = some (base, tip)) {entry : EpochEntry}
    (hentry : PublishedEntry chain cache base entry) {answers : Nat → HttpAnswer}
    (hanswers : ∀ attempt, FromLater chain entry.stop cache entry.index (answers attempt)) :
    (∀ body, (HttpEpochSource.epoch answers entry.index entry.bytes).1 = .ok body →
      body = bodyOf chain entry.start (cache.blocks.range entry.start entry.stop)) ∧
    ((∃ attempt, 1 ≤ attempt ∧ attempt ≤ HttpEpochSource.fetchAttempts ∧ (answers attempt).Whole) →
      (HttpEpochSource.epoch answers entry.index entry.bytes).1
        = .ok (bodyOf chain entry.start (cache.blocks.range entry.start entry.stop))) := by
  have hall := fun attempt => fetchEpoch_published h hsize hrange hentry (hanswers attempt)
  refine ⟨fun body hbody => ?_, ?_⟩
  · obtain ⟨n, -, hrun, -⟩ := retry_eq_ok.mp hbody
    rcases hall (1 + n) with hok | ⟨-, error, herror, -⟩
    · exact Except.ok.inj (hrun.symm.trans hok)
    · rw [herror] at hrun
      cases hrun
  · rintro ⟨attempt, hlow, hhigh, hwhole⟩
    refine retry_of_exists (fun n => ?_) ⟨attempt - 1, Nat.sub_le_sub_right hhigh 1, ?_⟩
    · exact (hall n).imp_right fun hother => hother.2
    · rw [Nat.add_sub_cancel' hlow]
      exact (hall attempt).resolve_right fun hother => hother.1 hwhole

/-! ### The import

To the import a run over HTTP is a run on the bodies it got, and those are the
publisher's.
-/

/-- A run of the import over HTTP that begins with the publisher at `cache`, if it gets its
manifest at all: its source answers with what comes of the attempts, if the run is not
dropped in the middle of them. -/
structure HttpRun (chain : String) (cache : Cache) (m : Manifest) (env : ImportEnv)
    (answers : Nat → Nat → HttpAnswer) : Prop where
  manifest : ∀ found, env.manifest = .ready (.ok found) → found = m
  epoch : ∀ request index maxBytes, env.epoch request index maxBytes = .dropped ∨
    env.epoch request index maxBytes = .ready
      ((HttpEpochSource.epoch (answers request) index maxBytes).1.mapError
        DownloadError.toSnapshotError)
  seen : ∀ (request : Nat) (entry : EpochEntry), m.epochs[request]? = some entry →
    ∀ attempt, FromLater chain entry.stop cache entry.index (answers request attempt)

/-- A run that is not dropped, with a node that has the published blocks, in which the
body of every epoch arrives in one of its attempts. -/
structure ArrivingRun (chain : String) (cache : Cache) (m : Manifest) (env : ImportEnv)
    (answers : Nat → Nat → HttpAnswer) : Prop extends HttpRun chain cache m env answers where
  listed : env.manifest = .ready (.ok m)
  ready : ∀ request index maxBytes, env.epoch request index maxBytes ≠ .dropped
  node : ∃ info, env.blockchainInfo = .ready (.ok info) ∧ info.chain = chain ∧
    ∀ entry ∈ m.epochs, entry.stop ≤ info.blocks
  lookup : ∀ (request : Nat) (entry : EpochEntry), m.epochs[request]? = some entry → ∃ lookup,
    env.lookup request = .ready lookup ∧ NodeAgrees cache.blockAt lookup entry.start entry.stop
  arrives : ∀ request < m.epochs.length, ∃ attempt, 1 ≤ attempt ∧
    attempt ≤ HttpEpochSource.fetchAttempts ∧ (answers request attempt).Whole

variable {m : Manifest} {env : ImportEnv} {answers : Nat → Nat → HttpAnswer}

/-- The bodies of a run over HTTP are those of the publisher's chain. -/
theorem HttpRun.honest (hrun : HttpRun chain cache m env answers)
    (h : PublisherReachable chain cache)
    (hsize : ∀ index body, writeEpoch cache chain index = .ok body → body.length ≤ maxEpochBytes)
    (hm : PublishedManifest chain cache m) {base tip : Nat}
    (hrange : cache.range = some (base, tip)) :
    HonestRun chain cache.blockAt m env := by
  intro found hfound
  obtain rfl := hrun.manifest found hfound
  refine ⟨hm.header.2.2, List.prefix_refl _, ?_⟩
  intro request entry body hentry hbody
  have hpublished := hm.entries base tip hrange entry (List.mem_of_getElem? hentry)
  rw [Nat.zero_add] at hbody
  rcases hrun.epoch request entry.index entry.bytes with hdropped | hready
  · rw [hdropped] at hbody
    cases hbody
  · rw [hready] at hbody
    have hok := Except.mapError_eq_ok.mp (Await.ready.inj hbody)
    rw [(epoch_published h hsize hrange hpublished (hrun.seen request entry hentry)).1 body hok]
    exact ⟨_, hpublished.served h.publishes hsize, rfl⟩

theorem ArrivingRun.answered (hrun : ArrivingRun chain cache m env answers)
    (h : PublisherReachable chain cache)
    (hsize : ∀ index body, writeEpoch cache chain index = .ok body → body.length ≤ maxEpochBytes)
    (hm : PublishedManifest chain cache m) {base tip : Nat}
    (hrange : cache.range = some (base, tip)) :
    AnsweredRun chain cache.blockAt m env := by
  refine ⟨hrun.listed, hrun.node, ?_⟩
  intro request entry hentry
  rw [Nat.zero_add]
  have hpublished := hm.entries base tip hrange entry (List.mem_of_getElem? hentry)
  obtain ⟨hlt, -⟩ := List.getElem?_eq_some_iff.mp hentry
  obtain ⟨lookup, hlookup, hagrees⟩ := hrun.lookup request entry hentry
  have hbody := (epoch_published h hsize hrange hpublished (hrun.seen request entry hentry)).2
    (hrun.arrives request hlt)
  have hready := (hrun.epoch request entry.index entry.bytes).resolve_left
    (hrun.ready request entry.index entry.bytes)
  rw [hbody] at hready
  exact ⟨_, lookup, hready, ⟨_, hpublished.served h.publishes hsize, rfl⟩, hlookup, hagrees⟩

theorem HttpRun.nothing (hrun : HttpRun chain cache m env answers) (hepochs : m.epochs = [])
    (held : Cache) (concurrency : Nat) : (importSnapshot env held concurrency).1 = held := by
  unfold importSnapshot
  rcases hfound : env.manifest with (error | found) | _
  · rfl
  · obtain rfl := hrun.manifest found hfound
    simp only [hepochs]
    rcases env.blockchainInfo with (error | info) | _
    · rfl
    · simp only
      rcases validateManifest found info.chain with error | u
      · rfl
      · rfl
    · rfl
  · rfl

/-! ### The two of them

The publisher goes on between the runs, and each run begins with the manifest of the
moment.  What an earlier one has landed is published still. -/

/-- A publisher, with all its epochs of a size that is served. -/
structure Publisher (chain : String) (cache : Cache) : Prop where
  reachable : PublisherReachable chain cache
  size : ∀ index body, writeEpoch cache chain index = .ok body → body.length ≤ maxEpochBytes

/-- Where a publisher is, and what runs over HTTP have made of an empty cache, whatever is
lost on the way. -/
inductive Downloaded (chain : String) : Cache → Cache → Prop
  | empty {cache : Cache} (h : Publisher chain cache) : Downloaded chain cache Cache.empty
  | goesOn {cache later held : Cache} {m : Manifest} (h : Downloaded chain cache held)
      (hm : manifest cache chain = .ok m) (hpublisher : Publisher chain later)
      (hlater : ∀ entry ∈ m.epochs, Later chain entry.stop cache later) :
      Downloaded chain later held
  | run {cache held : Cache} {m : Manifest} (h : Downloaded chain cache held)
      (hm : manifest cache chain = .ok m) (env : ImportEnv) (answers : Nat → Nat → HttpAnswer)
      (concurrency : Nat) (hrun : HttpRun chain cache m env answers) :
      Downloaded chain cache (importSnapshot env held concurrency).1

theorem Publisher.manifest (h : Publisher chain cache) :
    ∃ m, Lightwalletd.manifest cache chain = .ok m ∧ PublishedManifest chain cache m :=
  h.reachable.publishes.manifest h.size

theorem Publisher.listed (h : Publisher chain cache)
    (hm : Lightwalletd.manifest cache chain = .ok m) {index : Nat} {row : Bytes}
    (hindex : index ≤ u64Max) (hrow : cache.epochDigest index = some row) :
    ∃ entry ∈ m.epochs, entry.index = index := by
  have hin := (h.reachable.publishes.store.keeps.2.epochDigest_eq_some hindex).mp hrow
  unfold Lightwalletd.manifest at hm
  obtain ⟨epochs, hepochs, hsame⟩ := Except.bind_eq_ok.mp hm
  obtain rfl := Except.ok.inj hsame
  obtain ⟨entry, hentry, hmade⟩ := (Except.mapM_eq_ok.mp hepochs).exists_of_mem hin
  refine ⟨entry, hentry, ?_⟩
  dsimp only at hmade
  rcases hdecode : EpochDigest.decode row with _ | digest
  · rw [hdecode] at hmade
    cases hmade
  · rw [hdecode] at hmade
    exact congrArg EpochEntry.index (Except.ok.inj hmade).symm

/-- A cache with nothing in it, or with blocks that the publisher has and publishes. -/
def Mirrors (chain : String) (cache held : Cache) : Prop :=
  held = Cache.empty ∨ ∃ m base tip top, manifest cache chain = .ok m ∧
    cache.range = some (base, tip) ∧ OnChain cache.blockAt base tip m [] (some top) held

theorem Mirrors.run {held : Cache} (hheld : Mirrors chain cache held) (h : Publisher chain cache)
    (hchain : validChain chain = true) (hfound : manifest cache chain = .ok m)
    (hrun : HttpRun chain cache m env answers) (concurrency : Nat) :
    Mirrors chain cache (importSnapshot env held concurrency).1 := by
  obtain ⟨published, hpublished, hm⟩ := h.manifest
  obtain rfl := Except.ok.inj (hfound.symm.trans hpublished)
  rcases hrange : cache.range with _ | ⟨base, tip⟩
  · rw [hrun.nothing (hm.nothing hrange)]
    exact hheld
  obtain ⟨t, hon⟩ : ∃ t, OnChain cache.blockAt base tip m [] t held := by
    rcases hheld with rfl | ⟨m', base', tip', top, hm', hrange', hon⟩
    · exact ⟨none, onChain_empty []⟩
    · obtain rfl := Except.ok.inj (hfound.symm.trans hm')
      obtain ⟨rfl, rfl⟩ := Prod.mk.inj (Option.some.inj (hrange.symm.trans hrange'))
      exact ⟨some top, hon⟩
  obtain ⟨t', hon'⟩ := hon.run (h.reachable.publishes.manifestOf hchain hm hrange)
    (hrun.honest h.reachable h.size hm hrange) concurrency
  rcases t' with _ | top
  · exact Or.inl hon'.holds
  · exact Or.inr ⟨m, base, tip, top, hfound, hrange, hon'⟩

/-- The publisher goes on, without a truncation into what it has published. -/
theorem Mirrors.goesOn {held : Cache} (hheld : Mirrors chain cache held) (h : Publisher chain cache)
    (hfound : manifest cache chain = .ok m) (hpublisher : Publisher chain later)
    (hlater : ∀ entry ∈ m.epochs, Later chain entry.stop cache later) :
    Mirrors chain later held := by
  rcases hheld with hempty | ⟨m', base, tip, top, hm', hrange, hon⟩
  · exact Or.inl hempty
  obtain rfl := Except.ok.inj (hfound.symm.trans hm')
  obtain ⟨published, hpublished, hm⟩ := h.manifest
  obtain rfl := Except.ok.inj (hfound.symm.trans hpublished)
  obtain ⟨next, hnext, hlist⟩ := hpublisher.manifest
  -- What is held is below the end of an epoch of the manifest, up to which nothing changes.
  obtain ⟨entry, hin, htop⟩ := (hon.native top rfl top (Nat.le_refl _)).resolve_left
    List.not_mem_nil
  have hentry := hm.entries base tip hrange entry hin
  have hkeeps := (hlater entry hin).keeps h.reachable
  obtain ⟨value, hstop⟩ := hentry.writable.stop_held
  obtain ⟨v, w, hfirst, -⟩ := Cache.range_eq hrange
  have hlow := hkeeps.first hstop hfirst
  obtain ⟨tip', hrange'⟩ := Cache.range_isSome hlow
  obtain ⟨v', w', -, hlast⟩ := Cache.range_eq hrange'
  have htip : entry.stop ≤ tip' :=
    Table.le_last ((hkeeps.mem_iff hstop (Nat.le_refl _)).mpr hstop) hlast
  have hblock : ∀ height, height ≤ top → later.blockAt height = cache.blockAt height := by
    intro height hle
    rw [Cache.blockAt, Cache.blockAt, Cache.get, Cache.get, hkeeps.get_eq hstop (hle.trans htop)]
  have hholds : Holds cache.blockAt base top held := hon.holds
  refine Or.inr ⟨next, base, tip', top, hnext, hrange', ⟨hholds.le, ?_, hholds.base⟩, ?_, ?_, ?_⟩
  · rw [hholds.rows]
    refine congrArg _ (List.map_congr_left fun height hheight => ?_)
    have hle := hholds.le
    obtain ⟨-, hlt⟩ := List.mem_range'_1.mp hheight
    exact (hblock height (by omega)).symm
  · rintro _ ⟨⟩
    exact htop.trans htip
  all_goals
    obtain ⟨row, digest, hrow, -⟩ := hentry.row h.reachable.publishes h.size hrange
    obtain ⟨entry', hin', hindex⟩ := hpublisher.listed hnext hentry.index.2
      (hkeeps.digest _ _ hentry.index.2 (Nat.le_of_eq hentry.stop.symm) hrow)
  · intro _ _
    exact List.ne_nil_of_mem hin'
  · rintro _ ⟨⟩ height hle
    refine Or.inr ⟨entry', hin', ?_⟩
    rw [(hlist.entries base tip' hrange' entry' hin').stop, hindex, ← hentry.stop]
    exact hle.trans htop

/-- Whatever is lost on the way and however the publisher goes on, the cache is on its
chain. -/
theorem Downloaded.mirrors {held : Cache} (h : Downloaded chain cache held)
    (hchain : validChain chain = true) : Publisher chain cache ∧ Mirrors chain cache held := by
  induction h with
  | empty h => exact ⟨h, Or.inl rfl⟩
  | goesOn _ hm hpublisher hlater ih => exact ⟨hpublisher, ih.2.goesOn ih.1 hm hpublisher hlater⟩
  | run _ hm env answers concurrency hrun ih =>
      exact ⟨ih.1, ih.2.run ih.1 hchain hm hrun concurrency⟩

/-- What a cache on the publisher's chain has at a height is what the publisher has. -/
theorem Holds.get_published (h : PublisherReachable chain cache) {base tip : Nat}
    (hrange : cache.range = some (base, tip)) {held : Cache} {top : Nat} (htop : top ≤ tip)
    (hholds : Holds cache.blockAt base top held) :
    (∀ height, base ≤ height → height ≤ top →
      held.get height = .ok (some (cache.blockAt height)) ∧
        cache.get height = .ok (some (cache.blockAt height))) ∧
    ∀ height, ¬ (base ≤ height ∧ height ≤ top) → held.blocks.get height = none := by
  have hpub := h.publishes
  have hget := hholds.get_eq (hpub.chained.segment hpub.store hrange) htop
  refine ⟨fun height hlow hhigh => ?_, fun height hout => ?_⟩
  · obtain ⟨value, hrow⟩ := hpub.chained.toStored.held hrange hlow (hhigh.trans htop)
    refine ⟨?_, (hpub.chained.toStored.decode_blockAt hrow).2.2⟩
    rw [Cache.get, hget height, if_pos ⟨hlow, hhigh⟩]
    simp [Cache.decodeBlock, Except.mapError, Except.map]
  · rw [hget height, if_neg hout]

/--
**A download completes in the end.**  A publisher ingests, rolls back and walks, only never
truncates what it has published.  Meanwhile runs of the import over HTTP, each with the
manifest of the moment it began, lose slots, connections and bodies, or are dropped.
What they hold at any time is the publisher's; and a run from there, in which the body of
every epoch arrives in one of three attempts, succeeds and holds exactly the heights that
are published when it begins.
-/
theorem download_completes (hchain : validChain chain = true) {held : Cache}
    (h : Downloaded chain cache held) :
    ∃ m, manifest cache chain = .ok m ∧
      (∀ height block, held.get height = .ok (some block) →
        cache.get height = .ok (some block)) ∧
      ∀ (env : ImportEnv) (answers : Nat → Nat → HttpAnswer) (concurrency : Nat),
        ArrivingRun chain cache m env answers →
        ∃ cache', importSnapshot env held concurrency
            = (cache', .returned (.ok (m.epochs.getLast?.map (·.stop)))) ∧
          (∀ height, (∃ entry ∈ m.epochs, entry.start ≤ height ∧ height ≤ entry.stop) →
            ∃ block, cache'.get height = .ok (some block) ∧ cache.get height = .ok (some block)) ∧
          (∀ height, (¬ ∃ entry ∈ m.epochs, entry.start ≤ height ∧ height ≤ entry.stop) →
            cache'.blocks.get height = none) ∧
          cache'.snapshotBaseHeight = .ok (m.epochs.head?.map (·.start)) := by
  obtain ⟨hpublisher, hmirrors⟩ := h.mirrors hchain
  obtain ⟨m, hmanifest, hm⟩ := hpublisher.manifest
  have hpub := hpublisher.reachable.publishes
  refine ⟨m, hmanifest, ?_, fun env answers concurrency hrun => ?_⟩
  · intro height block hget
    rcases hmirrors with rfl | ⟨m', base, tip, top, -, hrange, hon⟩
    · cases hget
    · obtain ⟨hboth, hout⟩ :=
        Holds.get_published hpublisher.reachable hrange (hon.bound top rfl) hon.holds
      by_cases hin : base ≤ height ∧ height ≤ top
      · obtain ⟨hheldGet, hcacheGet⟩ := hboth height hin.1 hin.2
        rw [hcacheGet, ← hheldGet, hget]
      · rw [Cache.get, hout height hin] at hget
        cases hget
  rcases hlast : m.epochs.getLast? with _ | last
  · -- Nothing is published, and so nothing has landed.
    have hepochs := List.getLast?_eq_none_iff.mp hlast
    obtain ⟨hversion, hepochSize, hname⟩ := hm.header
    have hvalid : validateManifest m chain = .ok () :=
      validateManifest_eq_ok.mpr ⟨hversion, hepochSize, hname, by rw [hepochs]; rfl⟩
    obtain ⟨info, hinfo, hnode, -⟩ := hrun.node
    obtain rfl : held = Cache.empty := by
      refine hmirrors.resolve_right ?_
      rintro ⟨m', base, tip, top, hm', -, hon⟩
      obtain rfl := Except.ok.inj (hmanifest.symm.trans hm')
      exact hon.landed top rfl hepochs
    refine ⟨Cache.empty, ?_, ?_, fun _ _ => rfl, ?_⟩
    · exact importSnapshot_nothing hrun.listed hvalid hepochs ⟨info, hinfo, hnode⟩ concurrency
    · rintro height ⟨entry, hin, -⟩
      rw [hepochs] at hin
      cases hin
    · rw [hepochs]
      rfl
  have hlastIn := List.mem_of_getLast? hlast
  obtain ⟨base, tip, hrange⟩ : ∃ base tip, cache.range = some (base, tip) := by
    rcases hrange : cache.range with _ | ⟨base, tip⟩
    · rw [hm.nothing hrange] at hlastIn
      cases hlastIn
    · exact ⟨base, tip, rfl⟩
  have hof := hpub.manifestOf hchain hm hrange
  obtain ⟨t, hon⟩ : ∃ t, OnChain cache.blockAt base tip m [] t held := by
    rcases hmirrors with rfl | ⟨m', base', tip', top, hm', hrange', hon⟩
    · exact ⟨none, onChain_empty []⟩
    · obtain rfl := Except.ok.inj (hmanifest.symm.trans hm')
      obtain ⟨rfl, rfl⟩ := Prod.mk.inj (Option.some.inj (hrange.symm.trans hrange'))
      exact ⟨some top, hon⟩
  have hanswered := hrun.answered hpublisher.reachable hpublisher.size hm hrange
  obtain ⟨cache', himport, hholds⟩ := hon.reaches hof hanswered concurrency hlast
  have hbounds : ∀ entry ∈ m.epochs, entry.start ≤ entry.stop :=
    fun entry hin => (hof.within entry hin).2.1
  have hle := stop_le_last hof.consecutive hbounds hlast
  -- Nothing but the manifest's epochs has landed, so the runs before are not above it.
  have htop : max (t.getD last.stop) last.stop = last.stop := by
    rcases t with _ | top
    · exact Nat.max_self _
    · rcases hon.native top rfl top (Nat.le_refl _) with hnative | ⟨entry, hin, hstop⟩
      · cases hnative
      · exact max_eq_right (hstop.trans (hle entry hin))
  rw [htop] at himport hholds
  obtain ⟨first, hfirst⟩ : ∃ first, m.epochs.head? = some first :=
    ⟨_, List.head?_eq_some_head (List.ne_nil_of_mem hlastIn)⟩
  have hlow : first.start = base := hof.first first hfirst
  obtain ⟨hboth, hout⟩ :=
    Holds.get_published hpublisher.reachable hrange (hof.within last hlastIn).2.2 hholds
  refine ⟨cache', himport, ?_, fun height hnone => hout height ?_, ?_⟩
  · rintro height ⟨entry, hin, hstart, hstop⟩
    exact ⟨_, hboth height ((hof.within entry hin).1.trans hstart) (hstop.trans (hle entry hin))⟩
  · rintro ⟨hstart, hstop⟩
    exact hnone (entries_cover hof.consecutive hfirst hlast (hlow ▸ hstart) hstop)
  · rw [hholds.base, hfirst, Option.map_some, hlow]

end

/-! ### A flaky download -/

/-- A run over HTTP that begins with the publisher at `cache`. -/
def downloadEnv (cache : Cache) (answers : Nat → Nat → HttpAnswer) : ImportEnv :=
  { publisherEnv with
    manifest := .ready (manifest cache "main")
    epoch := fun request index maxBytes => .ready
      ((HttpEpochSource.epoch (answers request) index maxBytes).1.mapError
        DownloadError.toSnapshotError) }

/-- The publisher, once its tip has been rolled back. -/
def rolledBack : Cache := (publisher.reorg 9999).1

theorem publisher_publisher : Publisher "main" publisher := ⟨publisher_reachable, publisher_size⟩

theorem rolledBack_publisher : Publisher "main" rolledBack where
  reachable := publisher_reachable.reorg 9999 (by decide)
  size := soleEpoch_size (by decide +kernel) (by decide +kernel)

theorem soleEpoch_manifest {cache : Cache} (h : Publisher "main" cache) {tip : Nat}
    (hrange : cache.range = some (9999, tip))
    (hlisted : (manifest cache "main").toOption.map (fun m =>
      m.epochs.map fun entry => (entry.index, entry.start, entry.stop)) = some [(0, 9999, 9999)]) :
    ∃ m entry, manifest cache "main" = .ok m ∧ m.epochs = [entry] ∧ entry.index = 0 ∧
      entry.start = 9999 ∧ entry.stop = 9999 ∧ PublishedEntry "main" cache 9999 entry := by
  obtain ⟨m, hmanifest, hm⟩ := h.manifest
  rw [hmanifest] at hlisted
  obtain ⟨entry, heq, hbounds⟩ := List.map_eq_singleton_iff.mp (Option.some.inj hlisted)
  obtain ⟨hindex, hbounds⟩ := Prod.mk.inj hbounds
  obtain ⟨hstart, hstop⟩ := Prod.mk.inj hbounds
  exact ⟨m, entry, hmanifest, heq, hindex, hstart, hstop,
    hm.entries 9999 tip hrange entry (by rw [heq]; exact List.mem_singleton_self _)⟩

/-- Nobody is there. -/
def lostAnswers (_ _ : Nat) : HttpAnswer := .failed ⟨none, "connection refused"⟩

/-- The third attempt is the one that goes through. -/
def flakyAnswers (_ attempt : Nat) : HttpAnswer :=
  if attempt = 1 then .failed ⟨none, "connection refused"⟩
  else if attempt = 2 then .response 200 "" [] (some ⟨none, "connection reset"⟩)
  else .response 200 "" [(writeEpoch rolledBack "main" 0).toOption.getD []] none

/-- What is seen of a publisher that walks in the middle of it. -/
private theorem flakyAnswers_seen {entry : EpochEntry}
    (hentry : PublishedEntry "main" rolledBack 9999 entry) (hindex : entry.index = 0)
    (request attempt : Nat) :
    FromLater "main" entry.stop rolledBack entry.index (flakyAnswers request attempt) := by
  have hrange : rolledBack.range = some (9999, 9999) := by decide +kernel
  have hreads : EpochReads.After "main" entry.stop rolledBack
      ⟨rolledBack, rolledBack, (storeNextEpochDigest rolledBack "main").1⟩ :=
    ⟨Later.now, Later.now, Later.now.digest⟩
  rcases epochRoute_published rolledBack_publisher.reachable rolledBack_publisher.size hrange
    hentry hreads true (fun _ => true) with ⟨hslot, -⟩ | ⟨chunks, finished, hroute, -, hall⟩
  · cases hslot
  refine ⟨true, fun _ => true, _, hreads, ?_⟩
  rw [hroute]
  have hwhole := (hall fun _ => rfl).2
  have hbody := hentry.body
  rw [hindex] at hbody
  unfold flakyAnswers
  split
  · exact EpochResponse.Seen.lost _ _ rfl
  · split
    · exact EpochResponse.Seen.cut _ _ _ _ _ _ rfl (List.nil_prefix)
    · refine EpochResponse.Seen.whole _ _ _ _ _ (fun _ => rfl) ?_
      rw [hbody, hwhole]
      exact List.append_nil _

/-- A run loses everything and the publisher is rolled back; the run after that gets
through at the third attempt, with another manifest. -/
theorem publisher_downloads :
    ∃ held cache', held = (importSnapshot (downloadEnv publisher lostAnswers) Cache.empty 4).1 ∧
      manifest publisher "main" ≠ manifest rolledBack "main" ∧
      importSnapshot (downloadEnv rolledBack flakyAnswers) held 4
        = (cache', .returned (.ok (some 9999))) ∧
      cache'.snapshotBaseHeight = .ok (some 9999) := by
  obtain ⟨m, entry, hmanifest, heq, -, -, hstop, -⟩ :=
    soleEpoch_manifest publisher_publisher
      (show publisher.range = some (9999, 10000) by decide +kernel) (by decide +kernel)
  have hlost : HttpRun "main" publisher m (downloadEnv publisher lostAnswers) lostAnswers := by
    refine ⟨fun found hother => ?_, fun _ _ _ => Or.inr rfl, fun request entry _ attempt => ?_⟩
    · exact Except.ok.inj ((Await.ready.inj hother).symm.trans hmanifest)
    · exact ⟨true, fun _ => true, ⟨publisher, publisher, publisher⟩,
        ⟨Later.now, Later.now, Later.now⟩, EpochResponse.Seen.lost _ _ rfl⟩
  have hrolled : ∀ entry ∈ m.epochs, Later "main" entry.stop publisher rolledBack := by
    intro e he
    rw [heq] at he
    obtain rfl := List.mem_singleton.mp he
    exact Later.now.reorg 9999 (by decide) (Nat.le_of_eq hstop)
  have hdownloaded : Downloaded "main" rolledBack
      (importSnapshot (downloadEnv publisher lostAnswers) Cache.empty 4).1 :=
    ((Downloaded.empty publisher_publisher).run hmanifest _ lostAnswers 4 hlost).goesOn hmanifest
      rolledBack_publisher hrolled
  obtain ⟨next, last, hnext, hlast, hindex, hstart, hlastStop, hentry⟩ :=
    soleEpoch_manifest rolledBack_publisher
      (show rolledBack.range = some (9999, 9999) by decide +kernel) (by decide +kernel)
  have hflaky : ArrivingRun "main" rolledBack next (downloadEnv rolledBack flakyAnswers)
      flakyAnswers := by
    have hfound : (downloadEnv rolledBack flakyAnswers).manifest = .ready (.ok next) :=
      congrArg Await.ready hnext
    refine ⟨⟨fun found hother => ?_, fun _ _ _ => Or.inr rfl, ?_⟩, hfound,
      fun _ _ _ h => (by cases h),
      ⟨_, rfl, rfl, ?_⟩, ?_, fun request _ => ⟨3, by decide, by decide, _, _, rfl⟩⟩
    · exact Except.ok.inj (Await.ready.inj (hother.symm.trans hfound))
    · intro request e he attempt
      rw [hlast] at he
      obtain rfl := List.mem_singleton.mp (List.mem_of_getElem? he)
      exact flakyAnswers_seen hentry hindex request attempt
    · intro e he
      rw [hlast] at he
      obtain rfl := List.mem_singleton.mp he
      rw [hlastStop]
      decide
    · intro request e he
      rw [hlast] at he
      obtain rfl := List.mem_singleton.mp (List.mem_of_getElem? he)
      refine ⟨_, rfl, ?_⟩
      rw [hstart, hlastStop]
      intro number batch hbatch
      have hsingle : batch ∈ lookupBatches 9999 9999 := List.mem_of_getElem? hbatch
      rw [show lookupBatches 9999 9999 = [[9999]] by decide] at hsingle
      obtain rfl := List.mem_singleton.mp hsingle
      have hhash : (rolledBack.blockAt 9999).hash = (emptyBlock 9999).hash := by decide +kernel
      rw [List.map_singleton, hhash]
  obtain ⟨found, hfound, -, hcompletes⟩ := download_completes (by decide) hdownloaded
  obtain rfl := Except.ok.inj (hnext.symm.trans hfound)
  obtain ⟨cache', himport, -, -, hbase⟩ := hcompletes _ flakyAnswers 4 hflaky
  rw [hlast] at himport hbase
  refine ⟨_, cache', rfl, by decide +kernel, ?_, ?_⟩
  · rw [himport]
    simp [hlastStop]
  · rw [hbase]
    simp [hstart]

end Lightwalletd
