/-
The transactions of the mock node.

The node looks a transaction up in four places, one after the other, and the first parse
failure on the way ends the search.  Put behind each other the places are one list, and
the lookup is a search through it (`rawTransaction_eq`).  Whatever the control plane has
done, also when an operation failed, everything in the first three places parses, so
that a transaction in them is found whatever has been put under an address.  The mock
mempool lists the second and the third place, and an application moves both into the
first.
-/
import Lightwalletd.Darkside.Node
import Lightwalletd.Proofs.MempoolTx
import Lightwalletd.Proofs.Poll
import Lightwalletd.Proofs.Reorg
import Lightwalletd.Proofs.Served

namespace Lightwalletd

namespace DarksideState

section

variable [Librustzcash]

/-! ### The lookup as one search

The source searches one place after the other.  Laid end to end they are one list, and
the lookup is the first hit in it.
-/

/-- A search through transactions with the heights they are served at. -/
def search (displayTxid : String) :
    List (Bytes × Int) → Except DarksideError (Option GetRawTransaction)
  | [] => .ok none
  | entry :: rest => do
      let txid ← (txidDisplay entry.1).mapError .parse
      if txid = displayTxid then return some ⟨hexEncode entry.1, entry.2⟩
      else search displayTxid rest

/-- Go on with another search if the first finds nothing. -/
def orElse (first second : Except DarksideError (Option GetRawTransaction)) :
    Except DarksideError (Option GetRawTransaction) := do
  match ← first with
  | some found => return some found
  | none => second

omit [Librustzcash] in
@[simp] theorem orElse_none (second : Except DarksideError (Option GetRawTransaction)) :
    orElse (.ok none) second = second := rfl

omit [Librustzcash] in
@[simp] theorem orElse_some (found : GetRawTransaction)
    (second : Except DarksideError (Option GetRawTransaction)) :
    orElse (.ok (some found)) second = .ok (some found) := rfl

theorem search_append (displayTxid : String) (front back : List (Bytes × Int)) :
    search displayTxid (front ++ back)
      = orElse (search displayTxid front) (search displayTxid back) := by
  induction front with
  | nil => rfl
  | cons entry front ih =>
      rw [List.cons_append, search, search]
      rcases txidDisplay entry.1 with e | txid
      · rfl
      show (if txid = displayTxid then _ else _) = orElse (if txid = displayTxid then _ else _) _
      by_cases hsame : txid = displayTxid
      · rw [if_pos hsame, if_pos hsame]
        rfl
      · rw [if_neg hsame, if_neg hsame]
        exact ih

/-- The transactions, all served at one height. -/
def servedAt (height : Int) (raws : List Bytes) :
    List (Bytes × Int) :=
  raws.map fun raw => (raw, height)

/-- The transactions of the chain from a place on. -/
def minedTxs (startHeight : Nat) : Nat → List ActiveBlock → List (Bytes × Int)
  | _, [] => []
  | offset, block :: rest =>
      servedAt (asI64 (startHeight + offset)) block.txs ++ minedTxs startHeight (offset + 1) rest

/-- The transactions a staged block splits into. -/
def blockTxs (raw : Bytes) : List Bytes :=
  match splitBlock raw with
  | .ok (_, txs) => txs
  | .error _ => []

/-- The height of a staged block, as it is served. -/
def servedHeight (raw : Bytes) : Int :=
  match rawBlockHeight raw with
  | .ok height => asI64 height
  | .error _ => 0

/-- What the mock mempool lists, with the heights. -/
def pendingTxs (s : DarksideState) : List (Bytes × Int) :=
  (s.stagedBlocks.flatMap fun raw => servedAt (servedHeight raw) (blockTxs raw)) ++
    servedAt 0 (s.stagedTxs.map (·.2))

/-- All transactions of the chain and of the staging area. -/
def knownTxs (s : DarksideState) : List (Bytes × Int) :=
  minedTxs s.startHeight 0 s.active ++ s.pendingTxs

/-- A known transaction with the height it is answered at: that of its active block, that of
its staged block, or none at all if it is staged by itself. -/
def Placed (s : DarksideState) (raw : Bytes) (height : Int) : Prop :=
  (∃ place block, s.active[place]? = some block ∧ raw ∈ block.txs ∧
    height = asI64 (s.startHeight + place)) ∨
  (∃ staged header txs blockHeight, staged ∈ s.stagedBlocks ∧
    splitBlock staged = .ok (header, txs) ∧
    rawBlockHeight staged = .ok blockHeight ∧ raw ∈ txs ∧ height = asI64 blockHeight) ∨
  ∃ tx ∈ s.stagedTxs, raw = tx.2 ∧ height = 0

theorem findTx_eq (displayTxid : String) (height : Int) (raws : List Bytes) :
    findTx displayTxid height raws = search displayTxid (servedAt height raws) := by
  induction raws with
  | nil => rfl
  | cons raw rest ih =>
      unfold findTx
      rw [ih]
      rfl

theorem findActive_eq (displayTxid : String) (startHeight : Nat) (blocks : List ActiveBlock)
    (offset : Nat) : findActive displayTxid startHeight offset blocks
      = search displayTxid (minedTxs startHeight offset blocks) := by
  induction blocks generalizing offset with
  | nil => rfl
  | cons block rest ih =>
      rw [minedTxs, search_append, ← ih, ← findTx_eq]
      rfl

theorem findStaged_eq (displayTxid : String) {raws : List Bytes}
    (h : ∀ raw ∈ raws, ∃ height, rawBlockHeight raw = .ok height) :
    findStaged displayTxid raws = search displayTxid
      (raws.flatMap fun raw => servedAt (servedHeight raw) (blockTxs raw)) := by
  induction raws with
  | nil => rfl
  | cons raw rest ih =>
      obtain ⟨height, hheight⟩ := h raw List.mem_cons_self
      obtain ⟨header, coinbase, txs, hsplit, -⟩ := rawBlockHeight_eq_ok hheight
      rw [List.flatMap_cons, search_append, ← ih fun other hin =>
        h other (List.mem_cons_of_mem _ hin)]
      have hserved : servedHeight raw = asI64 height := by rw [servedHeight, hheight]
      have htxs : blockTxs raw = coinbase :: txs := by rw [blockTxs, hsplit]
      rw [hserved, htxs, ← findTx_eq, findStaged, hsplit, hheight]
      rfl

/-- The lookup searches the known transactions, then those of the addresses. -/
theorem rawTransaction_eq {s : DarksideState} (h : Staged s) (displayTxid : String) :
    s.rawTransaction displayTxid
      = match orElse (search displayTxid s.knownTxs) (findAddrTx displayTxid s.addrTxs) with
        | .error e => .error e
        | .ok (some found) => .ok found
        | .ok none => .error (.invalid "-5: No information available about transaction") := by
  have hstaged := findStaged_eq displayTxid fun raw hraw => by
    obtain ⟨height, hheight, -⟩ := h.blocks raw hraw
    exact ⟨height, hheight⟩
  rw [knownTxs, pendingTxs, search_append, search_append, ← findActive_eq, ← hstaged, ← findTx_eq]
  unfold rawTransaction
  generalize findActive displayTxid s.startHeight 0 s.active = mined
  generalize findStaged displayTxid s.stagedBlocks = inBlock
  generalize findTx displayTxid 0 (s.stagedTxs.map (·.2)) = alone
  generalize findAddrTx displayTxid s.addrTxs = underAddress
  rcases mined with e | _ | found
  · rfl
  · rcases inBlock with e | _ | found
    · rfl
    · rcases alone with e | _ | found
      · rfl
      · rcases underAddress with e | _ | found
        · rfl
        · rfl
        · rfl
      · rfl
    · rfl
  · rfl

/-! ### What parses

Everything known has been parsed once, when it was staged, and none of the operations
undoes that.
-/

theorem txidDisplay_eq_ok {raw : Bytes} {txid : String} : txidDisplay raw = .ok txid ↔
    ∃ tx rest, Librustzcash.readTransaction raw = .ok (tx, rest) ∧
      txid = wireToDisplayHex tx.txid := by
  unfold txidDisplay
  simp only [Except.bind_eq_ok, Except.mapError_eq_ok, Except.pure_eq_ok, Prod.exists]
  exact exists_congr fun tx => exists_congr fun rest => and_congr_right' eq_comm

theorem txid_of_counts {raw : Bytes} (h : ∃ counts, shieldedCounts raw = .ok counts) :
    ∃ txid, txidDisplay raw = .ok txid := by
  obtain ⟨counts, hcounts⟩ := h
  unfold shieldedCounts at hcounts
  obtain ⟨⟨tx, rest⟩, hread, -⟩ := Except.bind_eq_ok.mp hcounts
  exact ⟨_, txidDisplay_eq_ok.mpr ⟨tx, rest, Except.mapError_eq_ok.mp hread, rfl⟩⟩

/-- What the first failure or the first hit comes to, if nothing fails. -/
theorem search_cases (displayTxid : String) {entries : List (Bytes × Int)}
    (h : ∀ entry ∈ entries, ∃ txid, txidDisplay entry.1 = .ok txid) :
    (∃ front entry back, entries = front ++ entry :: back ∧
      (∀ other ∈ front, txidDisplay other.1 ≠ .ok displayTxid) ∧
      txidDisplay entry.1 = .ok displayTxid ∧
      search displayTxid entries = .ok (some ⟨hexEncode entry.1, entry.2⟩)) ∨
    search displayTxid entries = .ok none ∧
      ∀ entry ∈ entries, txidDisplay entry.1 ≠ .ok displayTxid := by
  induction entries with
  | nil => exact Or.inr ⟨rfl, fun _ hin => absurd hin List.not_mem_nil⟩
  | cons entry rest ih =>
      obtain ⟨txid, htxid⟩ := h entry List.mem_cons_self
      have hstep : search displayTxid (entry :: rest)
          = if txid = displayTxid then .ok (some ⟨hexEncode entry.1, entry.2⟩)
            else search displayTxid rest := by
        rw [search, htxid]
        rfl
      by_cases hsame : txid = displayTxid
      · refine Or.inl ⟨[], entry, rest, rfl, fun _ hin => absurd hin List.not_mem_nil, ?_, ?_⟩
        · rw [htxid, hsame]
        · rw [hstep, if_pos hsame]
      have hother : txidDisplay entry.1 ≠ .ok displayTxid := by
        rw [htxid]
        exact fun heq => hsame (Except.ok.inj heq)
      rw [hstep, if_neg hsame]
      rcases ih fun other hin => h other (List.mem_cons_of_mem _ hin) with
        ⟨front, found, back, hsplit, hfront, hfound, hrun⟩ | ⟨hrun, hnone⟩
      · refine Or.inl ⟨entry :: front, found, back, by rw [hsplit]; rfl, ?_, hfound, hrun⟩
        exact List.forall_mem_cons.mpr ⟨hother, hfront⟩
      · exact Or.inr ⟨hrun, List.forall_mem_cons.mpr ⟨hother, hnone⟩⟩

variable [LawfulLibrustzcash]

omit [Librustzcash] [LawfulLibrustzcash] in
theorem mem_minedTxs {startHeight : Nat} {blocks : List ActiveBlock} {offset : Nat}
    {entry : Bytes × Int} : entry ∈ minedTxs startHeight offset blocks ↔
      ∃ place block, blocks[place]? = some block ∧ entry.1 ∈ block.txs ∧
        entry.2 = asI64 (startHeight + (offset + place)) := by
  induction blocks generalizing offset with
  | nil => simp [minedTxs]
  | cons block rest ih =>
      rw [minedTxs, List.mem_append, ih]
      constructor
      · rintro (hin | ⟨place, later, hlater, hraw, hheight⟩)
        · obtain ⟨raw, hraw, rfl⟩ := List.mem_map.mp hin
          exact ⟨0, block, rfl, hraw, by rw [Nat.add_zero]⟩
        · refine ⟨place + 1, later, hlater, hraw, ?_⟩
          rw [hheight, Nat.add_assoc offset, Nat.add_comm 1]
      · rintro ⟨_ | place, later, hlater, hraw, hheight⟩
        · obtain rfl := Option.some.inj hlater
          rw [Nat.add_zero] at hheight
          exact Or.inl (List.mem_map.mpr ⟨entry.1, hraw, by rw [← hheight]⟩)
        · refine Or.inr ⟨place, later, hlater, hraw, ?_⟩
          rw [hheight, Nat.add_assoc offset, Nat.add_comm 1]

/-- The invariants of the mock chain that the lookup rests on. -/
structure Known (s : DarksideState) : Prop where
  staged : Staged s
  tallied : Tallied s.startHeight s.startSizes s.active

omit [LawfulLibrustzcash] in
theorem known_run [Sha256] (ops : List ControlOp) : Known (run .new ops) :=
  ⟨staged_kept.run ops, tallied_kept.run ops⟩

theorem Staged.block {s : DarksideState} (h : Staged s) {raw : Bytes}
    (hraw : raw ∈ s.stagedBlocks) :
    ∃ header height, splitBlock raw = .ok (header, blockTxs raw) ∧
      rawBlockHeight raw = .ok height ∧ s.startHeight ≤ height ∧ ∀ tx ∈ blockTxs raw, Whole tx := by
  obtain ⟨height, hheight, hlow⟩ := h.blocks raw hraw
  obtain ⟨header, coinbase, rest, hsplit, -⟩ := rawBlockHeight_eq_ok hheight
  have htxs : blockTxs raw = coinbase :: rest := by rw [blockTxs, hsplit]
  rw [htxs]
  exact ⟨header, height, hsplit, hheight, hlow, (splitBlock_framed hsplit).2⟩

omit [LawfulLibrustzcash] in
theorem Whole.txid {raw : Bytes} (h : Whole raw) : ∃ txid, txidDisplay raw = .ok txid := by
  obtain ⟨tx, hread⟩ := h
  exact ⟨_, txidDisplay_eq_ok.mpr ⟨tx, [], hread, rfl⟩⟩

theorem Known.pending {s : DarksideState} (h : Known s) :
    ∀ entry ∈ s.pendingTxs, ∃ txid, txidDisplay entry.1 = .ok txid := by
  intro entry hin
  rcases List.mem_append.mp hin with hblock | htx
  · obtain ⟨raw, hraw, hentry⟩ := List.mem_flatMap.mp hblock
    obtain ⟨tx, htx, rfl⟩ := List.mem_map.mp hentry
    obtain ⟨-, -, -, -, -, hwhole⟩ := h.staged.block hraw
    exact Whole.txid (hwhole tx htx)
  · obtain ⟨raw, hraw, rfl⟩ := List.mem_map.mp htx
    obtain ⟨staged, hstaged, rfl⟩ := List.mem_map.mp hraw
    exact txid_of_counts (h.staged.txs staged hstaged)

theorem Known.txids {s : DarksideState} (h : Known s) :
    ∀ entry ∈ s.knownTxs, ∃ txid, txidDisplay entry.1 = .ok txid := by
  intro entry hin
  rcases List.mem_append.mp hin with hmined | hpending
  · obtain ⟨place, block, hblock, hraw, -⟩ := mem_minedTxs.mp hmined
    exact txid_of_counts ((h.tallied.at hblock).2.1 _ hraw)
  · exact h.pending entry hpending

theorem Staged.placed {s : DarksideState} (h : Staged s) {entry : Bytes × Int}
    (hentry : entry ∈ s.knownTxs) : s.Placed entry.1 entry.2 := by
  rcases List.mem_append.mp hentry with hmined | hpending
  · obtain ⟨place, block, hblock, hraw, hheight⟩ := mem_minedTxs.mp hmined
    exact Or.inl ⟨place, block, hblock, hraw, by rw [hheight, Nat.zero_add]⟩
  rcases List.mem_append.mp hpending with hblock | htx
  · obtain ⟨staged, hstaged, hserved⟩ := List.mem_flatMap.mp hblock
    obtain ⟨raw, hraw, rfl⟩ := List.mem_map.mp hserved
    obtain ⟨header, height, hsplit, hheight, -⟩ := h.block hstaged
    refine Or.inr (Or.inl ⟨staged, header, _, height, hstaged, hsplit, hheight, hraw, ?_⟩)
    rw [servedHeight, hheight]
  · obtain ⟨raw, hraw, rfl⟩ := List.mem_map.mp htx
    obtain ⟨tx, hstaged, rfl⟩ := List.mem_map.mp hraw
    exact Or.inr (Or.inr ⟨tx, hstaged, rfl, rfl⟩)

/-- **The lookup finds what is known**, the first transaction that has the txid, whatever
is under the addresses. -/
theorem Known.rawTransaction {s : DarksideState} (h : Known s) {entry : Bytes × Int}
    (hentry : entry ∈ s.knownTxs) {txid : String} (htxid : txidDisplay entry.1 = .ok txid) :
    ∃ front found back, s.knownTxs = front ++ found :: back ∧
      (∀ other ∈ front, txidDisplay other.1 ≠ .ok txid) ∧ txidDisplay found.1 = .ok txid ∧
      s.rawTransaction txid = .ok ⟨hexEncode found.1, found.2⟩ := by
  rcases search_cases txid h.txids with
    ⟨front, found, back, hsplit, hfront, hfound, hrun⟩ | ⟨-, hnone⟩
  · refine ⟨front, found, back, hsplit, hfront, hfound, ?_⟩
    rw [rawTransaction_eq h.staged, hrun, orElse_some]
  · exact absurd htxid (hnone entry hentry)

/-! ### The mempool methods -/

omit [LawfulLibrustzcash] in
theorem txids_eq {raws : List Bytes} (h : ∀ raw ∈ raws, ∃ txid, txidDisplay raw = .ok txid)
    (height : Int) : ∃ listed, txids raws = .ok listed ∧
      List.Forall₂ (fun entry txid => txidDisplay entry.1 = .ok txid) (servedAt height raws)
        listed := by
  choose! txidOf htxid using h
  have hlisted : List.Forall₂ (fun raw txid => txidDisplay raw = .ok txid) raws (raws.map txidOf) :=
    List.forall₂_map_right_iff.mpr (List.forall₂_same.mpr htxid)
  refine ⟨raws.map txidOf, ?_, List.forall₂_map_left_iff.mpr hlisted⟩
  exact Except.mapM_eq_ok.mpr (hlisted.imp fun raw txid hraw => Except.mapError_eq_ok.mpr hraw)

theorem Known.rawMempool {s : DarksideState} (h : Known s) :
    ∃ txids, s.rawMempool = .ok txids ∧
      List.Forall₂ (fun entry txid => txidDisplay entry.1 = .ok txid) s.pendingTxs txids := by
  have hblock : ∀ raw ∈ s.stagedBlocks, ∃ listed, blockTxids raw = .ok listed ∧
      List.Forall₂ (fun entry txid => txidDisplay entry.1 = .ok txid)
        (servedAt (servedHeight raw) (blockTxs raw)) listed := by
    intro raw hraw
    obtain ⟨header, -, hsplit, -, -, hwhole⟩ := h.staged.block hraw
    obtain ⟨listed, hrun, hall⟩ := txids_eq (fun tx htx => Whole.txid (hwhole tx htx))
      (servedHeight raw)
    exact ⟨listed, by rw [blockTxids, hsplit]; exact hrun, hall⟩
  have halone : ∀ raw ∈ s.stagedTxs.map (·.2), ∃ txid, txidDisplay raw = .ok txid := by
    intro raw hraw
    obtain ⟨tx, htx, rfl⟩ := List.mem_map.mp hraw
    exact txid_of_counts (h.staged.txs tx htx)
  obtain ⟨blocks, hblocks, hlisted⟩ := Except.mapM_forall₂ hblock
  obtain ⟨alone, hrun, hstaged⟩ := txids_eq halone 0
  refine ⟨blocks.flatten ++ alone, ?_, ?_⟩
  · unfold DarksideState.rawMempool
    rw [hblocks, Except.ok_bind, hrun, Except.ok_bind, Except.pure_eq_ok]
  · refine List.rel_append ?_ hstaged
    rw [List.flatMap_def]
    exact List.rel_flatten (List.forall₂_map_left_iff.mpr hlisted)

variable [Sha256]

theorem Known.answers {s : DarksideState} (h : Known s) {entry : Bytes × Int}
    (hentry : entry ∈ s.pendingTxs) {txid : String} (htxid : txidDisplay entry.1 = .ok txid) :
    ∃ raw tx, s.mempoolNode.rawTransaction txid = .ok raw ∧ txid = wireToDisplayHex tx.txid ∧
      ∃ bytes rest, hexDecode raw.hex = .ok bytes ∧
        Librustzcash.readTransaction bytes = .ok (tx, rest) := by
  obtain ⟨front, found, back, -, -, hfound, hrun⟩ :=
    h.rawTransaction (List.mem_append_right _ hentry) htxid
  obtain ⟨tx, rest, hread, heq⟩ := txidDisplay_eq_ok.mp hfound
  exact ⟨⟨hexEncode found.1, found.2⟩, tx, Except.mapError_eq_ok.mpr hrun, heq, found.1, rest,
    hexDecode_hexEncode _, hread⟩

omit [Librustzcash] [LawfulLibrustzcash] [Sha256] in
theorem listed_mem {R : Bytes × Int → String → Prop} {entries : List (Bytes × Int)}
    {txids : List String} (h : List.Forall₂ R entries txids) {txid : String} (hin : txid ∈ txids) :
    ∃ entry ∈ entries, R entry txid :=
  (List.Forall₂.flip h).exists_of_mem hin

/-- The listing parses, each transaction with its place. -/
theorem Known.listing {s : DarksideState} (h : Known s) {txids : List String}
    (hlisted : List.Forall₂ (fun entry txid => txidDisplay entry.1 = .ok txid) s.pendingTxs txids) :
    ∃ compacts, s.mempoolNode.Listing txids (compacts.map (·.txid)) compacts := by
  have hplace : ∀ listed ∈ txids.zipIdx, ∃ compact : CompactTx,
      displayHexToWire listed.1 = .ok compact.txid ∧
        s.mempoolNode.ParsesAt listed.2 listed.1 compact := by
    intro listed hin
    obtain ⟨entry, hentry, htxid⟩ := listed_mem hlisted (List.fst_mem_of_mem_zipIdx hin)
    obtain ⟨raw, tx, hraw, heq, bytes, rest, hbytes, hread⟩ := h.answers hentry htxid
    refine ⟨toCompactTx listed.2 tx false, ?_, raw, bytes, hraw, hbytes, ?_⟩
    · rw [heq]
      exact displayHexToWire_wireToDisplayHex _
    · exact compactTxFromRaw_eq_ok.mpr ⟨tx, rest, hread, rfl⟩
  choose! compactOf hwire hparsed using hplace
  refine ⟨txids.zipIdx.map compactOf, ?_, ?_⟩
  · have hall : List.Forall₂ (fun listed compact => displayHexToWire listed.1 = .ok compact.txid)
        txids.zipIdx (txids.zipIdx.map compactOf) :=
      List.forall₂_map_right_iff.mpr (List.forall₂_same.mpr hwire)
    rw [List.forall₂_map_right_iff]
    revert hall
    generalize txids.zipIdx.map compactOf = compacts
    intro hall
    rw [← List.zipIdx_map_fst 0 txids]
    exact List.forall₂_map_left_iff.mpr hall
  · exact List.forall₂_map_right_iff.mpr (List.forall₂_same.mpr hparsed)

/-- A round of a polled stream at the presented tip goes through. -/
theorem Known.poll {s : DarksideState} (h : Known s) {txids : List String}
    (hmempool : s.rawMempool = .ok txids)
    (hlisted : List.Forall₂ (fun entry txid => txidDisplay entry.1 = .ok txid) s.pendingTxs txids)
    {stream : PollStream} {info : GetBlockchainInfo}
    (hinfo : s.mempoolNode.blockchainInfo = .ok info)
    (htip : info.bestblockhash = stream.startTip) :
    ∃ items seen, stream.poll (s.mempoolNode.answers txids)
        = (items, .sleeping ⟨stream.startTip, seen⟩) ∧ stream.seen ⊆ seen ∧ txids ⊆ seen ∧
      ∀ item ∈ items, item.height = 0 ∧ ∃ txid ∈ txids, txid ∉ stream.seen ∧
        txidDisplay item.data = .ok txid := by
  have hanswer : ∀ listed ∈ txids.zipIdx, ∃ raw bytes,
      (s.mempoolNode.answers txids).rawTransaction listed.2 = .ok raw ∧
        hexDecode raw.hex = .ok bytes ∧ txidDisplay bytes = .ok listed.1 := by
    intro listed hin
    obtain ⟨entry, hentry, htxid⟩ := listed_mem hlisted (List.fst_mem_of_mem_zipIdx hin)
    obtain ⟨raw, tx, hraw, heq, bytes, rest, hbytes, hread⟩ := h.answers hentry htxid
    refine ⟨raw, bytes, ?_, hbytes, txidDisplay_eq_ok.mpr ⟨tx, rest, hread, heq⟩⟩
    have hget : txids.getD listed.2 "" = listed.1 := by
      rw [List.getD_eq_getElem?_getD, List.mem_zipIdx_iff_getElem?.mp hin]
      rfl
    show s.mempoolNode.rawTransaction (txids.getD listed.2 "") = .ok raw
    rw [hget]
    exact hraw
  obtain ⟨items, seen, hrun, hkept, hall, hitems⟩ := pollTxs_answered
    (s.mempoolNode.answers txids) txids 0 stream.seen fun listed hin => by
      obtain ⟨raw, bytes, hraw, hbytes, -⟩ := hanswer listed hin
      exact ⟨raw, bytes, hraw, hbytes⟩
  refine ⟨items, seen, ?_, hkept, hall, ?_⟩
  · have hlist : (s.mempoolNode.answers txids).rawMempool = .ok txids :=
      Except.mapError_eq_ok.mpr hmempool
    have htipped : (s.mempoolNode.answers txids).blockchainInfo = .ok info := hinfo
    unfold PollStream.poll
    simp only [htipped, htip, ne_eq, not_true_eq_false, if_false, hlist, hrun]
  · intro item hitem
    obtain ⟨hzero, listed, hin, hfresh, raw, hraw, -, hdata⟩ := hitems item hitem
    obtain ⟨raw', bytes, hraw', hbytes, htxid⟩ := hanswer listed hin
    obtain rfl := Except.ok.inj (hraw.symm.trans hraw')
    obtain rfl := Except.ok.inj (hbytes.symm.trans hdata)
    exact ⟨hzero, listed.1, List.fst_mem_of_mem_zipIdx hin, hfresh, htxid⟩

/--
**The mock mempool is always served.**  After any operations of the control plane, also
ones that failed part-way: the node lists what is in the staging area, in order, answers
every listed txid with the first transaction that has it, among those of the active
blocks, of the staged blocks and staged by themselves, at the height of its place, and
both mempool methods go through.  `GetMempoolTx` hands over what no suffix excludes, each
parsed with its place, and a round of `GetMempoolStream` at the presented tip only yields
transactions it had not seen.
-/
theorem mock_mempool (ops : List ControlOp) : ∃ txids compacts,
    (run .new ops).rawMempool = .ok txids ∧
    List.Forall₂ (fun entry txid => txidDisplay entry.1 = .ok txid)
      (run .new ops).pendingTxs txids ∧
    (∀ txid ∈ txids, ∃ front raw height back,
      (run .new ops).knownTxs = front ++ (raw, height) :: back ∧
      (∀ other ∈ front, txidDisplay other.1 ≠ .ok txid) ∧ txidDisplay raw = .ok txid ∧
      (run .new ops).mempoolNode.rawTransaction txid = .ok ⟨hexEncode raw, height⟩ ∧
      (run .new ops).Placed raw height) ∧
    (run .new ops).mempoolNode.Listing txids (compacts.map (·.txid)) compacts ∧
    (∀ (request : GetMempoolTxRequest) (now : Nat), request.Valid →
      getMempoolTx (run .new ops).mempoolNode none request now
        = .ok ((keptTxs (compacts.map (·.txid)) request.excludeTxidSuffixes
            (.fromPoolTypes request.poolTypes) compacts).map .ok)) ∧
    ∀ (stream : PollStream) (info : GetBlockchainInfo),
      (run .new ops).mempoolNode.blockchainInfo = .ok info → info.bestblockhash = stream.startTip →
      ∃ items seen, stream.poll ((run .new ops).mempoolNode.answers txids)
          = (items, .sleeping ⟨stream.startTip, seen⟩) ∧ stream.seen ⊆ seen ∧ txids ⊆ seen ∧
        ∀ item ∈ items, item.height = 0 ∧ ∃ txid ∈ txids, txid ∉ stream.seen ∧
          txidDisplay item.data = .ok txid := by
  have hknown := known_run ops
  obtain ⟨txids, hmempool, hlisted⟩ := hknown.rawMempool
  obtain ⟨compacts, hlisting⟩ := hknown.listing hlisted
  refine ⟨txids, compacts, hmempool, hlisted, ?_, hlisting, ?_, ?_⟩
  · intro txid hin
    obtain ⟨entry, hentry, htxid⟩ := listed_mem hlisted hin
    obtain ⟨front, found, back, hsplit, hfront, hfound, hrun⟩ :=
      hknown.rawTransaction (List.mem_append_right _ hentry) htxid
    exact ⟨front, found.1, found.2, back, hsplit, hfront, hfound, Except.mapError_eq_ok.mpr hrun,
      hknown.staged.placed (by simp [hsplit])⟩
  · intro request now hvalid
    unfold getMempoolTx
    rw [hvalid.check, Except.ok_bind]
    exact getMempoolTxFromNode_eq (Except.mapError_eq_ok.mpr hmempool) hlisting _ _
  · exact fun stream info hinfo htip => hknown.poll hmempool hlisted hinfo htip

end

/-- The mined chain, with its second block staged again, a third one, and a transaction. -/
def pendingChain : List ControlOp :=
  minedChain ++ [.stageBlock (mockBlock 3), .stageBlock (mockBlock 2),
    .stageTransaction 2 (coinbaseTx 0x58)]

/-- All three are listed, answered above the tip, from the chain and without a height, and
both methods serve them. -/
theorem pendingChain_mempool : ∃ txids, (run .new pendingChain).rawMempool = .ok txids ∧
    (txids.map fun txid => ((run .new pendingChain).mempoolNode.rawTransaction txid).toOption.map
      (·.height)) = [some 3, some 2, some 0] ∧
    (∀ txid ∈ txids, ∃ raw height, (run .new pendingChain).mempoolNode.rawTransaction txid
      = .ok ⟨hexEncode raw, height⟩ ∧ (run .new pendingChain).Placed raw height) ∧
    (∃ items, getMempoolTx (run .new pendingChain).mempoolNode none ⟨[], []⟩ 0 = .ok items) ∧
    ∃ info items seen, (run .new pendingChain).mempoolNode.blockchainInfo = .ok info ∧
      (PollStream.start info.bestblockhash).poll ((run .new pendingChain).mempoolNode.answers txids)
        = (items, .sleeping ⟨info.bestblockhash, seen⟩) ∧ txids ⊆ seen := by
  obtain ⟨txids, compacts, hmempool, -, hanswered, -, hserved, hpolled⟩ := mock_mempool pendingChain
  have hheights : ((run .new pendingChain).rawMempool.toOption.map fun txids =>
      txids.map fun txid =>
      ((run .new pendingChain).mempoolNode.rawTransaction txid).toOption.map (·.height))
      = some [some 3, some 2, some 0] := by decide +kernel
  rw [hmempool] at hheights
  have htip : (run .new pendingChain).mempoolNode.blockchainInfo.toOption.isSome = true := by
    decide +kernel
  rcases hinfo : (run .new pendingChain).mempoolNode.blockchainInfo with error | info
  · rw [hinfo] at htip
    cases htip
  obtain ⟨items, seen, hpoll, -, hseen, -⟩ :=
    hpolled (.start info.bestblockhash) info hinfo rfl
  refine ⟨txids, hmempool, Option.some.inj hheights, fun txid hin => ?_,
    ⟨_, hserved ⟨[], []⟩ 0 ⟨by decide, by decide, by decide⟩⟩, info, items, seen, rfl, hpoll, hseen⟩
  obtain ⟨-, raw, height, -, -, -, -, hraw, hplaced⟩ := hanswered txid hin
  exact ⟨raw, height, hraw, hplaced⟩

end DarksideState

end Lightwalletd
