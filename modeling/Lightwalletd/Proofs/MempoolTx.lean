/-
The two ways `GetMempoolTx` is answered.

Serving the monitor's snapshot and polling the node are written separately, but each
comes down to the same list: the listed transactions in order, each with its place for an
index, without those that some suffix picks out.  A suffix picks out a transaction if it
ends that one's txid and no other's, and in that form its effect depends neither on where
it stands among the suffixes nor on how often.
-/
import Lightwalletd.Proofs.Refresh
import Lightwalletd.Service.MempoolTx

namespace Lightwalletd

/-! ### The exclusion

A suffix excludes a txid if it ends that one and no other.  Put this way, neither the
order of the suffixes nor their number matters.
-/

/-- Some suffix ends the txid at `place` and no other. -/
def ExcludedAt (wireTxids exclude : List Bytes) (place : Nat) : Prop :=
  ∃ suffix ∈ exclude, ∀ (other : Nat) (h : other < wireTxids.length),
    suffix <:+ wireTxids[other] ↔ other = place

instance (wireTxids exclude : List Bytes) (place : Nat) :
    Decidable (ExcludedAt wireTxids exclude place) :=
  inferInstanceAs (Decidable (∃ suffix ∈ exclude, ∀ (other : Nat) (h : other < wireTxids.length),
    suffix <:+ wireTxids[other] ↔ other = place))

/-- A member counted once is the only one of its kind: there is none in front of it and
none behind. -/
private theorem countP_eq_one_iff {α : Type} {p : α → Bool} {l : List α} {place : Nat}
    (hplace : place < l.length) : (l.countP p = 1 ∧ p l[place] = true ↔
      ∀ (other : Nat) (h : other < l.length), p l[other] = true ↔ other = place) := by
  have hparts : p l[place] = true →
      l.countP p = (l.take place).countP p + 1 + (l.drop (place + 1)).countP p := by
    intro hp
    conv_lhs => rw [← List.take_append_drop place l, List.drop_eq_getElem_cons hplace]
    rw [List.countP_append, List.countP_cons_of_pos hp]
    omega
  constructor
  · rintro ⟨hone, hp⟩ other hother
    have hcount := hparts hp
    have hfront : (l.take place).countP p = 0 := by omega
    have hback : (l.drop (place + 1)).countP p = 0 := by omega
    refine ⟨fun hpo => ?_, fun heq => by simpa only [heq] using hp⟩
    rcases Nat.lt_trichotomy other place with hlt | heq | hgt
    · exact absurd hpo (List.countP_eq_zero.mp hfront _
        (List.mem_take_iff_getElem.mpr ⟨other, by omega, rfl⟩))
    · exact heq
    · refine absurd hpo (List.countP_eq_zero.mp hback _
        (List.mem_drop_iff_getElem.mpr ⟨other - (place + 1), by omega, ?_⟩))
      simp only [Nat.add_sub_cancel' (show place + 1 ≤ other from hgt)]
  · intro hall
    have hp : p l[place] = true := (hall place hplace).mpr rfl
    have hfront : (l.take place).countP p = 0 := by
      refine List.countP_eq_zero.mpr fun a ha hpa => ?_
      obtain ⟨other, hlt, rfl⟩ := List.mem_take_iff_getElem.mp ha
      have := (hall other (by omega)).mp hpa
      omega
    have hback : (l.drop (place + 1)).countP p = 0 := by
      refine List.countP_eq_zero.mpr fun a ha hpa => ?_
      obtain ⟨other, hlt, rfl⟩ := List.mem_drop_iff_getElem.mp ha
      have := (hall (place + 1 + other) (by omega)).mp hpa
      omega
    exact ⟨by rw [hparts hp, hfront, hback], hp⟩

/-- The two passes over the suffixes find what each of them picks out. -/
theorem excludedBySuffixes_eq (wireTxids exclude : List Bytes) :
    excludedBySuffixes wireTxids exclude
      = (List.range wireTxids.length).map fun place =>
          decide (ExcludedAt wireTxids exclude place) := by
  have hcount : ∀ (suffix : Bytes) (place : Nat) (hplace : place < wireTxids.length),
      (wireTxids.countP (fun txid => suffix.isSuffixOf txid) = 1 ∧
        suffix.isSuffixOf wireTxids[place] = true) ↔
      ∀ (other : Nat) (h : other < wireTxids.length),
        suffix <:+ wireTxids[other] ↔ other = place := by
    intro suffix place hplace
    rw [countP_eq_one_iff hplace]
    simp only [List.isSuffixOf_iff_suffix]
  have hpairs : excludedBySuffixes wireTxids exclude = wireTxids.map fun txid =>
      (exclude.map fun suffix => (suffix, wireTxids.countP fun txid => suffix.isSuffixOf txid)).any
        fun suffix => suffix.2 = 1 && suffix.1.isSuffixOf txid := by
    rw [List.map_prod_left_eq_zip]
    rfl
  rw [hpairs]
  refine List.ext_getElem (by simp) fun place hleft hright => ?_
  have hplace : place < wireTxids.length := by simpa using hright
  rw [List.getElem_map, List.getElem_map, List.getElem_range, Bool.eq_iff_iff, List.any_eq_true,
    decide_eq_true_iff]
  constructor
  · rintro ⟨pair, hpair, hboth⟩
    obtain ⟨suffix, hsuffix, rfl⟩ := List.mem_map.mp hpair
    rw [Bool.and_eq_true, decide_eq_true_iff] at hboth
    exact ⟨suffix, hsuffix, (hcount suffix place hplace).mp hboth⟩
  · rintro ⟨suffix, hsuffix, hall⟩
    refine ⟨_, List.mem_map.mpr ⟨suffix, hsuffix, rfl⟩, ?_⟩
    rw [Bool.and_eq_true, decide_eq_true_iff]
    exact (hcount suffix place hplace).mpr hall

example : excludedBySuffixes [[1, 2], [3, 2]] [[2], [1, 2], []] = [true, false] := by decide

/-! ### What is handed over -/

/-- The transactions that no suffix picks out, pruned. -/
def keptTxs (wireTxids exclude : List Bytes) (pools : Pools) (compacts : List CompactTx) :
    List CompactTx :=
  (compacts.zipIdx.filter fun compact => ¬ExcludedAt wireTxids exclude compact.2).map
    fun compact => filterTxToPools compact.1 pools

theorem ExcludedAt.mono {wireTxids exclude exclude' : List Bytes} {place : Nat}
    (hsub : exclude ⊆ exclude') (h : ExcludedAt wireTxids exclude place) :
    ExcludedAt wireTxids exclude' place := by
  obtain ⟨suffix, hsuffix, hall⟩ := h
  exact ⟨suffix, hsub hsuffix, hall⟩

theorem keptTxs_sublist {wireTxids exclude exclude' : List Bytes} (hsub : exclude ⊆ exclude')
    (pools : Pools) (compacts : List CompactTx) :
    List.Sublist (keptTxs wireTxids exclude' pools compacts)
      (keptTxs wireTxids exclude pools compacts) := by
  refine (List.monotone_filter_right _ fun compact hcompact => ?_).map _
  simp only [decide_eq_true_eq] at hcompact ⊢
  exact fun hexcluded => hcompact (hexcluded.mono hsub)

private theorem keptTxs_congr {wireTxids exclude exclude' : List Bytes}
    (hsame : ∀ suffix, suffix ∈ exclude ↔ suffix ∈ exclude') (pools : Pools)
    (compacts : List CompactTx) :
    keptTxs wireTxids exclude pools compacts = keptTxs wireTxids exclude' pools compacts :=
  (keptTxs_sublist (fun suffix h => (hsame suffix).mpr h) pools compacts).antisymm
    (keptTxs_sublist (fun suffix h => (hsame suffix).mp h) pools compacts)

/-- Going through the transactions with their flags hands over the same ones. -/
theorem filterMap_excluded (wireTxids exclude : List Bytes) (pools : Pools)
    {compacts : List CompactTx} (hlength : compacts.length = wireTxids.length) :
    ((compacts.zip (excludedBySuffixes wireTxids exclude)).filterMap fun entry =>
        if entry.2 then none else some (filterTxToPools entry.1 pools))
      = keptTxs wireTxids exclude pools compacts := by
  unfold keptTxs
  rw [excludedBySuffixes_eq, ← hlength, List.zip_map_right, List.range_eq_range',
    ← List.zipIdx_eq_zip_range', List.filterMap_map, ← List.filterMap_eq_map,
    List.filterMap_filter]
  refine List.filterMap_congr fun compact _ => ?_
  by_cases hexcluded : ExcludedAt wireTxids exclude compact.2
  · simp [hexcluded]
  · simp [hexcluded]

/-! ### The listing

A first refresh of an empty monitor takes in what the node lists, in that order.
-/

section

variable [Librustzcash]

/-- The transaction the node has under the txid, parsed with its place. -/
def MempoolNode.ParsesAt (node : MempoolNode) (place : Nat) (txid : String)
    (compact : CompactTx) : Prop :=
  ∃ raw bytes, node.rawTransaction txid = .ok raw ∧ hexDecode raw.hex = .ok bytes ∧
    compactTxFromRaw place bytes = .ok compact

/-- The node lists distinct txids, and has a transaction of the mempool under each. -/
structure MempoolNode.Lists (node : MempoolNode) (txids : List String) : Prop where
  rawMempool : node.rawMempool = .ok txids
  distinct : txids.Nodup
  good : ∀ txid ∈ txids, GoodFetch (node.rawTransaction txid)
  hex : ∀ txid ∈ txids, ∃ bytes, hexDecode txid = .ok bytes

/-- The listing, decoded and parsed. -/
structure MempoolNode.Listing (node : MempoolNode) (txids : List String)
    (wireTxids : List Bytes) (compacts : List CompactTx) : Prop where
  wire : List.Forall₂ (fun txid wireTxid => displayHexToWire txid = .ok wireTxid) txids wireTxids
  parsed : List.Forall₂ (fun listed compact => node.ParsesAt listed.2 listed.1 compact)
    txids.zipIdx compacts

/-- What a refresh gets to see of a node. -/
def MempoolNode.answers (node : MempoolNode) (txids : List String) : RefreshAnswers where
  blockchainInfo := node.blockchainInfo
  rawMempool := node.rawMempool
  rawTransaction place := node.rawTransaction (txids.getD place "")

theorem refreshTxs_lists {node : MempoolNode} {answers : RefreshAnswers} :
    ∀ {txids : List String} {state : MonitorState},
      (∀ index (h : index < txids.length),
        answers.rawTransaction (state.entries.length + index) = node.rawTransaction txids[index]) →
      txids.Nodup → (∀ txid ∈ txids, txid ∉ state.seen) →
      (∀ txid ∈ txids, GoodFetch (node.rawTransaction txid)) →
      (∀ txid ∈ txids, ∃ bytes, hexDecode txid = .ok bytes) →
      ∃ state' entries, refreshTxs answers state.entries.length state txids = (state', .ok ()) ∧
        state'.tipHash = state.tipHash ∧ state'.entries = state.entries ++ entries ∧
        List.Forall₂ (fun listed (entry : MempoolEntry) =>
            displayHexToWire listed.1 = .ok entry.wireTxid ∧
              node.ParsesAt listed.2 listed.1 entry.compact)
          (txids.zipIdx state.entries.length) entries := by
  intro txids
  induction txids with
  | nil => exact fun {state} _ _ _ _ _ =>
      ⟨state, [], rfl, rfl, (List.append_nil _).symm, List.Forall₂.nil⟩
  | cons txid txids ih =>
      intro state hanswers hdistinct hnew hgood hhex
      have hanswer : answers.rawTransaction state.entries.length = node.rawTransaction txid :=
        hanswers 0 (Nat.zero_lt_succ _)
      obtain ⟨hnotin, hdistinct'⟩ := List.nodup_cons.mp hdistinct
      have hgood' := hgood txid List.mem_cons_self
      have hdecoded := hhex txid List.mem_cons_self
      rcases refreshTx_cases (node.rawTransaction txid) (hnew txid List.mem_cons_self) with
        ⟨error, herror, -⟩ | ⟨raw, hraw, ⟨result, -, hbad⟩ | ⟨entry, hdisplay, hbytes, hat, hrun⟩⟩
      · obtain ⟨_, _, _, hok, -⟩ := hgood'
        cases herror.symm.trans hok
      · exact absurd ⟨hgood', hdecoded⟩ hbad
      have hlength : (state.entries ++ [entry]).length = state.entries.length + 1 :=
        List.length_append
      obtain ⟨state', entries, hrest, htip, hentries, hall⟩ :=
        @ih ⟨state.tipHash, txid :: state.seen, state.entries ++ [entry]⟩
          (fun index hindex => by
            have := hanswers (index + 1) (Nat.succ_lt_succ hindex)
            rwa [List.getElem_cons_succ, ← Nat.add_assoc, Nat.add_right_comm, ← hlength] at this)
          hdistinct'
          (fun other hother hseen => (List.mem_cons.mp hseen).elim
            (fun heq => hnotin (heq ▸ hother)) (hnew other (List.mem_cons_of_mem _ hother)))
          (fun other hother => hgood other (List.mem_cons_of_mem _ hother))
          (fun other hother => hhex other (List.mem_cons_of_mem _ hother))
      refine ⟨state', entry :: entries, ?_, htip, ?_, ?_⟩
      · unfold refreshTxs
        rw [hanswer, hrun]
        simpa only [hlength] using hrest
      · rw [hentries, List.append_assoc, List.singleton_append]
      · rw [List.zipIdx_cons]
        refine List.Forall₂.cons ⟨?_, raw, entry.raw, hraw, hbytes, hat.compact⟩
          (by simpa only [hlength] using hall)
        rw [← hdisplay]
        exact displayHexToWire_eq_ok.mpr hat.wire

theorem refresh_lists {node : MempoolNode} {info : GetBlockchainInfo} {txids : List String}
    (hinfo : node.blockchainInfo = .ok info) (h : node.Lists txids) (now : Nat) :
    ∃ snapshot wireTxids compacts,
      (refresh (node.answers txids) now .empty).2 = .ok snapshot ∧
        snapshot.refreshedAt = some now ∧ snapshot.entries.map (·.wireTxid) = wireTxids ∧
        snapshot.entries.map (·.compact) = compacts ∧ node.Listing txids wireTxids compacts := by
  have hempty : (MonitorState.empty.atTip info.bestblockhash).entries = [] ∧
      (MonitorState.empty.atTip info.bestblockhash).seen = [] := by
    unfold MonitorState.atTip
    split <;> exact ⟨rfl, rfl⟩
  obtain ⟨state', entries, hrun, -, hentries, hall⟩ :=
    @refreshTxs_lists _ node (node.answers txids) txids
      (MonitorState.empty.atTip info.bestblockhash)
      (fun index hindex => by
        rw [hempty.1, List.length_nil, Nat.zero_add]
        exact congrArg node.rawTransaction (List.getD_eq_getElem _ _ hindex))
      h.distinct (by simp [hempty.2]) h.good h.hex
  rw [hempty.1, List.length_nil] at hrun hall
  rw [hempty.1, List.nil_append] at hentries
  refine ⟨.fresh state'.tipHash entries now, _, _, ?_, rfl, rfl, rfl, ?_, ?_⟩
  · unfold refresh
    simp only [show (node.answers txids).blockchainInfo = .ok info from hinfo,
      show (node.answers txids).rawMempool = .ok txids from h.rawMempool, hrun, hentries]
  · rw [List.forall₂_map_right_iff, ← List.zipIdx_map_fst 0 txids, List.forall₂_map_left_iff]
    exact hall.imp fun listed entry hboth => hboth.1
  · rw [List.forall₂_map_right_iff]
    exact hall.imp fun listed entry hboth => hboth.2

theorem MempoolNode.Listing.lengths {node : MempoolNode} {txids : List String}
    {wireTxids : List Bytes} {compacts : List CompactTx}
    (h : node.Listing txids wireTxids compacts) :
    wireTxids.length = txids.length ∧ compacts.length = txids.length :=
  ⟨h.wire.length_eq.symm, by rw [← h.parsed.length_eq, List.length_zipIdx]⟩

/-! ### From the node -/

theorem mempoolTxFrom_eq_ok {node : MempoolNode} {place : Nat} {txid : String}
    {compact : CompactTx} (h : node.ParsesAt place txid compact) :
    mempoolTxFrom node place txid = .ok compact := by
  obtain ⟨raw, bytes, hraw, hbytes, hparse⟩ := h
  unfold mempoolTxFrom decodeHex
  rw [Except.mapError_eq_ok.mpr hraw, Except.ok_bind, Except.mapError_eq_ok.mpr hbytes,
    Except.ok_bind, Except.mapError_eq_ok.mpr hparse]

theorem mempoolTxsFrom_eq {node : MempoolNode} (pools : Pools) : ∀ {txids : List String}
    {place : Nat} {compacts : List CompactTx} {excluded : List Bool},
    excluded.length = txids.length →
    List.Forall₂ (fun listed compact => node.ParsesAt listed.2 listed.1 compact)
      (txids.zipIdx place) compacts →
    mempoolTxsFrom node pools place (txids.zip excluded)
      = ((compacts.zip excluded).filterMap fun entry =>
          if entry.2 then none else some (filterTxToPools entry.1 pools)).map .ok := by
  intro txids
  induction txids with
  | nil =>
      rintro place compacts excluded - hparsed
      cases hparsed
      rfl
  | cons txid txids ih =>
      intro place compacts excluded hlength hparsed
      rw [List.zipIdx_cons] at hparsed
      obtain ⟨compact, rest, hthis, hrest, rfl⟩ := List.forall₂_cons_left_iff.mp hparsed
      rcases excluded with _ | ⟨flag, excluded⟩
      · cases hlength
      have hih := ih (Nat.succ.inj hlength) hrest
      rw [List.zip_cons_cons, List.zip_cons_cons]
      rcases flag with _ | _
      · rw [mempoolTxsFrom, mempoolTxFrom_eq_ok hthis, hih]
        rfl
      · rw [mempoolTxsFrom, hih]
        rfl

omit [Librustzcash] in
private theorem decodeMempoolTxids_eq {txids : List String} {wireTxids : List Bytes}
    (h : List.Forall₂ (fun txid wireTxid => displayHexToWire txid = .ok wireTxid) txids
      wireTxids) : txids.mapM decodeMempoolTxid = .ok wireTxids := by
  exact Except.mapM_eq_ok.mpr (h.imp fun txid wireTxid hwire => Except.mapError_eq_ok.mpr hwire)

theorem getMempoolTxFromNode_eq {node : MempoolNode} {txids : List String}
    {wireTxids : List Bytes} {compacts : List CompactTx} (hmempool : node.rawMempool = .ok txids)
    (h : node.Listing txids wireTxids compacts) (exclude : List Bytes) (poolTypes : List Int) :
    getMempoolTxFromNode node exclude poolTypes
      = .ok ((keptTxs wireTxids exclude (.fromPoolTypes poolTypes) compacts).map .ok) := by
  have hlengths := h.lengths
  have hflags : (excludedBySuffixes wireTxids exclude).length = txids.length := by
    rw [excludedBySuffixes_eq, List.length_map, List.length_range, hlengths.1]
  unfold getMempoolTxFromNode
  rw [Except.mapError_eq_ok.mpr hmempool, Except.ok_bind, decodeMempoolTxids_eq h.wire]
  simp only [mempoolTxsFrom_eq _ hflags h.parsed,
    filterMap_excluded _ _ _ (hlengths.2.trans hlengths.1.symm), Except.pure_eq_ok]

/-! ### From the snapshot -/

omit [Librustzcash] in
theorem mempoolTxFromSnapshot_eq (snapshot : MempoolSnapshot) (exclude : List Bytes)
    (pools : Pools) :
    mempoolTxFromSnapshot snapshot exclude pools
      = keptTxs (snapshot.entries.map (·.wireTxid)) exclude pools
          (snapshot.entries.map (·.compact)) := by
  rw [← filterMap_excluded _ _ _ (by rw [List.length_map, List.length_map]), List.zip_map_left,
    List.filterMap_map]
  rfl

/-! ### Both -/

omit [Librustzcash] in
private theorem checkSuffixes_eq_ok : ∀ {exclude : List Bytes} {index : Nat},
    (∀ suffix ∈ exclude, suffix.length ≤ maxSuffixLen) → checkSuffixes index exclude = .ok () := by
  intro exclude
  induction exclude with
  | nil => exact fun _ => rfl
  | cons suffix rest ih =>
      intro index hall
      rw [checkSuffixes, if_neg (Nat.not_lt.mpr (hall suffix List.mem_cons_self))]
      exact ih fun other hother => hall other (List.mem_cons_of_mem _ hother)

/-- The request is within the limits. -/
structure GetMempoolTxRequest.Valid (request : GetMempoolTxRequest) : Prop where
  count : request.excludeTxidSuffixes.length ≤ maxExcludeTxidSuffixes
  lengths : ∀ suffix ∈ request.excludeTxidSuffixes, suffix.length ≤ maxSuffixLen
  poolTypes : validatePoolTypes request.poolTypes = .ok ()

omit [Librustzcash] in
theorem GetMempoolTxRequest.Valid.check {request : GetMempoolTxRequest} (h : request.Valid) :
    checkMempoolRequest request = .ok () := by
  unfold checkMempoolRequest
  rw [Except.ensure_pos h.count, Except.ok_bind, checkSuffixes_eq_ok h.lengths, Except.ok_bind,
    h.poolTypes]

/-- The two paths hand over the same transactions: those listed, in order and each parsed
with its place, without those that some suffix picks out. -/
theorem getMempoolTx_agrees {node : MempoolNode} {info : GetBlockchainInfo} {txids : List String}
    (hinfo : node.blockchainInfo = .ok info) (hlists : node.Lists txids) {refreshed now : Nat}
    (hfresh : now - refreshed ≤ stalenessCutoff) :
    ∃ snapshot wireTxids compacts,
      (refresh (node.answers txids) refreshed .empty).2 = .ok snapshot ∧
        node.Listing txids wireTxids compacts ∧
        ∀ request : GetMempoolTxRequest, request.Valid →
          let kept := fun exclude =>
            keptTxs wireTxids exclude (.fromPoolTypes request.poolTypes) compacts
          getMempoolTx node (some snapshot) request now
              = .ok ((kept request.excludeTxidSuffixes).map .ok) ∧
            getMempoolTx node none request now
              = .ok ((kept request.excludeTxidSuffixes).map .ok) ∧
            (∀ exclude, (∀ suffix, suffix ∈ request.excludeTxidSuffixes ↔ suffix ∈ exclude) →
              kept request.excludeTxidSuffixes = kept exclude) ∧
            ∀ exclude, request.excludeTxidSuffixes ⊆ exclude →
              List.Sublist (kept exclude) (kept request.excludeTxidSuffixes) := by
  obtain ⟨snapshot, wireTxids, compacts, hrun, hstamp, hwires, hcompacts, hlisting⟩ :=
    refresh_lists hinfo hlists refreshed
  have hstale : snapshot.isStale now = false := by
    unfold MempoolSnapshot.isStale
    rw [hstamp]
    simpa using hfresh
  refine ⟨snapshot, wireTxids, compacts, hrun, hlisting, fun request hvalid => ⟨?_, ?_,
    fun exclude hsame => keptTxs_congr hsame _ _, fun exclude hsub => keptTxs_sublist hsub _ _⟩⟩
  · unfold getMempoolTx checkStale
    rw [hvalid.check, Except.ok_bind]
    simp only [Except.ensure_pos hstale, Except.ok_bind, mempoolTxFromSnapshot_eq, hwires,
      hcompacts, Except.pure_eq_ok]
  · unfold getMempoolTx
    rw [hvalid.check, Except.ok_bind]
    exact getMempoolTxFromNode_eq hlists.rawMempool hlisting _ _

end

/-- A node whose mempool holds two transactions. -/
def twoPending : MempoolNode where
  blockchainInfo := .ok ⟨"main", 1, "aa"⟩
  rawMempool := .ok [listedTxid (coinbaseTx 1), listedTxid (coinbaseTx 2)]
  rawTransaction txid :=
    .ok ⟨hexEncode (if txid = listedTxid (coinbaseTx 1) then coinbaseTx 1 else coinbaseTx 2), 0⟩

private theorem twoPending_lists :
    twoPending.Lists [listedTxid (coinbaseTx 1), listedTxid (coinbaseTx 2)] := by
  have hparses : ∀ raw ∈ [coinbaseTx 1, coinbaseTx 2],
      (compactTxFromRaw 0 raw).toOption.isSome = true := by decide +kernel
  refine ⟨rfl, by decide +kernel, fun txid _ => ?_, fun txid htxid => ?_⟩
  · obtain ⟨compact, hcompact⟩ := Option.isSome_iff_exists.mp (hparses
      (if txid = listedTxid (coinbaseTx 1) then coinbaseTx 1 else coinbaseTx 2)
      (by split <;> simp))
    exact ⟨_, _, compact, rfl, rfl, hexDecode_hexEncode _, Except.toOption_eq_some.mp hcompact⟩
  · simp only [List.mem_cons, List.not_mem_nil, or_false] at htxid
    rcases htxid with rfl | rfl
    · exact ⟨_, hexDecode_hexEncode _⟩
    · exact ⟨_, hexDecode_hexEncode _⟩

/-- An empty suffix ends both txids, and the other one ends only the first. -/
def firstExcluded : GetMempoolTxRequest where
  excludeTxidSuffixes := [[], (sha256d (coinbaseTx 1)).drop 30]
  poolTypes := []

theorem twoPending_agrees : ∃ snapshot wireTxids compacts,
    (refresh (twoPending.answers [listedTxid (coinbaseTx 1), listedTxid (coinbaseTx 2)]) 0
        .empty).2 = .ok snapshot ∧
      twoPending.Listing [listedTxid (coinbaseTx 1), listedTxid (coinbaseTx 2)] wireTxids compacts ∧
      getMempoolTx twoPending (some snapshot) firstExcluded 7
        = getMempoolTx twoPending none firstExcluded 7 := by
  obtain ⟨snapshot, wireTxids, compacts, hrun, hlisting, hboth⟩ :=
    @getMempoolTx_agrees _ twoPending ⟨"main", 1, "aa"⟩ _ rfl twoPending_lists 0 7 (by decide)
  obtain ⟨hsnapshot, hnode, -⟩ := hboth firstExcluded ⟨by decide +kernel, by decide +kernel, rfl⟩
  exact ⟨snapshot, wireTxids, compacts, hrun, hlisting, hsnapshot.trans hnode.symm⟩

end Lightwalletd
