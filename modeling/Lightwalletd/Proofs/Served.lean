/-
Serving the blocks of the mock chain.

A block is staged raw, split, changed and laid out again, and the fetch parses what
was laid out.  The changes stay clear of the part of the header that says how long it
is (`Framed`), so the new block splits where the old one did.  Its transactions are
read back if each of them is read to its end (`Whole`): those of a staged block are,
since the splitter cut them out, but a transaction staged by itself was only read
from the front, and bytes behind it throw the parser off.
-/
import Lightwalletd.Proofs.Presented

namespace Lightwalletd

section

variable [Librustzcash]

/-! ### Reading a block back -/

/-- The transaction is read to its end. -/
def Whole (tx : Bytes) : Prop :=
  ∃ parsed, Librustzcash.readTransaction tx = .ok (parsed, [])

/-- The header ends where its solution does. -/
def Framed (header : Bytes) : Prop :=
  ∃ n solution, n ≤ 0x02000000 ∧ solution.length = n ∧ headerPrefixLen ≤ header.length ∧
    header.drop headerPrefixLen = writeCompactSize n ++ solution

variable [LawfulLibrustzcash]

/-- A whole transaction reads the same in front of anything. -/
theorem Whole.reads {tx : Bytes} (h : Whole tx) :
    ∃ parsed, ∀ other, Librustzcash.readTransaction (tx ++ other) = .ok (parsed, other) := by
  obtain ⟨parsed, hparsed⟩ := h
  obtain ⟨taken, htaken, hreads⟩ := LawfulLibrustzcash.transaction tx parsed [] hparsed
  rw [List.append_nil] at htaken
  exact ⟨parsed, by rw [htaken]; exact hreads⟩

theorem readCompactSize_write {n : Nat} (hmax : n ≤ 0x02000000) (rest : Bytes) :
    Librustzcash.readCompactSize (writeCompactSize n ++ rest) = .ok (n, rest) :=
  (LawfulLibrustzcash.compactSize _ _ _).mpr ⟨hmax, rfl⟩

/-- What splitting cuts out is framed, and its transactions are whole. -/
theorem splitBlock_framed {raw header : Bytes} {txs : List Bytes}
    (h : splitBlock raw = .ok (header, txs)) : Framed header ∧ ∀ tx ∈ txs, Whole tx := by
  refine ⟨?_, ?_⟩
  · have hlong := DarksideState.splitBlock_header h
    unfold splitBlock headerEnd at h
    simp only [Except.bind_eq_ok, Except.ensure_eq_ok, Except.mapError_eq_ok, Except.pure_eq_ok,
      Prod.mk.injEq] at h
    obtain ⟨stop, ⟨-, hprefix, ⟨n, rest⟩, hsize, -, hstop, rfl⟩, -, -, -, -, -, -, rfl, rfl⟩ := h
    obtain ⟨hmax, hsolution⟩ := readCompactSize_split hsize
    dsimp only at hstop hlong ⊢
    have hposition : (raw.drop headerPrefixLen).length - rest.length
        = (writeCompactSize n).length := by
      rw [hsolution, List.length_append]
      omega
    have hlength : raw.length = headerPrefixLen + (writeCompactSize n).length + rest.length := by
      have := congrArg List.length hsolution
      rw [List.length_drop, List.length_append] at this
      omega
    rw [hposition] at hstop hlong ⊢
    refine ⟨n, rest.take n, hmax, ?_, hlong, ?_⟩
    · rw [List.length_take]
      omega
    · rw [List.drop_take, hsolution, show headerPrefixLen + (writeCompactSize n).length + n
        - headerPrefixLen = (writeCompactSize n).length + n by omega, List.take_length_add_append]
  · intro tx htx
    obtain ⟨parsed, hreads⟩ := (splitBlock_raw h).2.2.2 tx htx
    exact ⟨parsed, by simpa using hreads []⟩

theorem headerEnd_append {header : Bytes} (h : Framed header) (tail : Bytes) :
    headerEnd (header ++ tail) = .ok header.length := by
  obtain ⟨n, solution, hmax, hlength, hlong, hdrop⟩ := h
  have hheader : header.length = headerPrefixLen + (writeCompactSize n).length + n := by
    have := congrArg List.length hdrop
    rw [List.length_drop, List.length_append] at this
    omega
  have hsolution : (header ++ tail).drop headerPrefixLen
      = writeCompactSize n ++ (solution ++ tail) := by
    rw [List.drop_append_of_le_length hlong, hdrop, List.append_assoc]
  have hsize := readCompactSize_write hmax (solution ++ tail)
  unfold headerEnd
  simp only [Except.bind_eq_ok, Except.ensure_eq_ok, Except.mapError_eq_ok, Except.pure_eq_ok,
    hsolution]
  refine ⟨(), ?_, (n, solution ++ tail), hsize, (), ?_, ?_⟩
  · rw [List.length_append]
    omega
  · simp only [List.length_append]
    omega
  · simp only [List.length_append]
    omega

private theorem readVtx_flatten (txs : List Bytes) (hwhole : ∀ tx ∈ txs, Whole tx) {index : Nat}
    (hindex : 0 < index) (height : Option Nat) :
    ∃ vtx, readVtx txs.length index height txs.flatten = .ok (vtx, height, []) ∧
      vtx.length = txs.length := by
  induction txs generalizing index with
  | nil => exact ⟨[], rfl, rfl⟩
  | cons tx rest ih =>
      obtain ⟨parsed, hreads⟩ := (hwhole tx List.mem_cons_self).reads
      obtain ⟨vtx, hvtx, hlength⟩ := ih (fun other hin => hwhole other (List.mem_cons_of_mem _ hin))
        (Nat.succ_pos index)
      refine ⟨toCompactTx index parsed (index = 0) :: vtx, ?_, by simp [hlength]⟩
      rw [List.length_cons, readVtx_succ, List.flatten_cons, hreads]
      refine Except.bind_eq_ok.mpr ⟨(parsed, rest.flatten), rfl, ?_⟩
      exact Except.bind_eq_ok.mpr ⟨height, if_neg (by omega),
        Except.bind_eq_ok.mpr ⟨_, hvtx, rfl⟩⟩

theorem toCompactBlock_toRaw [Sha256] {block : ActiveBlock} {coinbase : Bytes} {rest : List Bytes}
    {height : Nat} (hframed : Framed block.header) (htxs : block.txs = coinbase :: rest)
    (hheight : coinbaseHeightFromRaw coinbase = .ok height) (hwhole : ∀ tx ∈ block.txs, Whole tx)
    (hcount : block.txs.length ≤ 0x02000000) :
    ∃ compact, toCompactBlock block.toRaw = .ok compact ∧ compact.height = height ∧
      compact.hash = sha256d block.header ∧ compact.prevHash = (block.header.drop 4).take 32 ∧
      compact.vtx.length = block.txs.length ∧ compact.chainMetadata = some {} := by
  obtain ⟨parsed, hreads⟩ := (hwhole coinbase (by rw [htxs]; exact List.mem_cons_self)).reads
  obtain ⟨vtx, hvtx, hlength⟩ := readVtx_flatten rest
    (fun tx hin => hwhole tx (by rw [htxs]; exact List.mem_cons_of_mem _ hin)) Nat.one_pos
    (some height)
  have hcoinbase : coinbaseHeight parsed = .ok height := by
    have halone := hreads []
    rw [List.append_nil] at halone
    unfold coinbaseHeightFromRaw at hheight
    rw [halone] at hheight
    exact hheight
  have hall : readVtx block.txs.length 0 none block.txs.flatten
      = .ok (toCompactTx 0 parsed true :: vtx, some height, []) := by
    rw [htxs, List.length_cons, readVtx_succ, List.flatten_cons, hreads]
    refine Except.bind_eq_ok.mpr ⟨(parsed, rest.flatten), rfl, ?_⟩
    refine Except.bind_eq_ok.mpr ⟨some height, ?_, Except.bind_eq_ok.mpr ⟨_, hvtx, rfl⟩⟩
    rw [if_pos rfl, hcoinbase]
    rfl
  have hraw : block.toRaw
      = block.header ++ (writeCompactSize block.txs.length ++ block.txs.flatten) :=
    List.append_assoc _ _ _
  have hsize := readCompactSize_write hcount block.txs.flatten
  have hlong : headerPrefixLen ≤ block.header.length := by
    obtain ⟨_, _, -, -, hlong, -⟩ := hframed
    exact hlong
  unfold headerPrefixLen at hlong
  refine ⟨{
    height := height
    hash := sha256d block.header
    prevHash := (block.toRaw.drop 4).take 32
    time := ofLeBytes ((block.toRaw.drop 100).take 4)
    header := []
    vtx := toCompactTx 0 parsed true :: vtx
    chainMetadata := some {} }, ?_, rfl, rfl, ?_, ?_, rfl⟩
  · unfold toCompactBlock
    refine Except.bind_eq_ok.mpr ⟨block.header.length, ?_, ?_⟩
    · rw [hraw]
      exact headerEnd_append hframed _
    refine Except.bind_eq_ok.mpr ⟨(block.txs.length, block.txs.flatten), ?_, ?_⟩
    · rw [hraw, List.drop_left, hsize]
      rfl
    refine Except.bind_eq_ok.mpr ⟨_, hall, Except.bind_eq_ok.mpr ⟨(), if_pos rfl, ?_⟩⟩
    simp only [hraw, List.take_left]
  · show (block.toRaw.drop 4).take 32 = _
    rw [hraw, List.drop_append_of_le_length (by omega),
      List.take_append_of_le_length (by rw [List.length_drop]; omega)]
  · rw [List.length_cons, hlength, htxs, List.length_cons]

/-! ### What is read back

A transaction that is mined has been parsed, but it may have bytes left behind it.  Then
the block reads as another sequence of transactions, or not at all.
-/

/-- The transactions, one behind the other, are as many whole ones, and not more than
the parser counts. -/
def Recuts (txs : List Bytes) : Prop :=
  txs.length ≤ 0x02000000 ∧ ∃ cut : List Bytes, cut.length = txs.length ∧
    cut.flatten = txs.flatten ∧ ∀ tx ∈ cut, Whole tx

omit [LawfulLibrustzcash] in
theorem Recuts.of_whole {txs : List Bytes} (hcount : txs.length ≤ 0x02000000)
    (hwhole : ∀ tx ∈ txs, Whole tx) : Recuts txs :=
  ⟨hcount, txs, rfl, rfl, hwhole⟩

theorem Whole.unique {tx tx' later later' : Bytes} (h : Whole tx) (h' : Whole tx')
    (heq : tx ++ later = tx' ++ later') : tx = tx' := by
  obtain ⟨parsed, hreads⟩ := h.reads
  obtain ⟨parsed', hreads'⟩ := h'.reads
  have hsame := hreads later
  rw [heq, hreads'] at hsame
  cases hsame
  exact List.append_cancel_right heq

omit [Librustzcash] [LawfulLibrustzcash] in
/-- A count beyond the limit does not look like one within it. -/
private theorem writeCompactSize_beyond {n m : Nat} {a b : Bytes} (hn : 0x02000000 < n)
    (hm : m ≤ 0x02000000) : writeCompactSize n ++ a ≠ writeCompactSize m ++ b := by
  intro h
  unfold writeCompactSize at h
  rw [if_neg (by omega), if_neg (by omega)] at h
  by_cases hword : n ≤ 0xffffffff
  · rw [if_pos hword] at h
    split_ifs at h with hbyte hshort hlong
    · have hhead : (254 : UInt8) = UInt8.ofNat m := (List.cons.inj h).1
      have := congrArg UInt8.toNat hhead
      rw [UInt8.toNat_ofNat_of_lt' (by show m < 256; omega)] at this
      simp at this
      omega
    · exact absurd (List.cons.inj h).1 (by decide)
    · have hsame := List.append_inj_left (List.cons.inj h).2 (by simp)
      have := congrArg ofLeBytes hsame
      rw [ofLeBytes_leBytes_of_lt (by omega), ofLeBytes_leBytes_of_lt (by omega)] at this
      omega
    · omega
  · rw [if_neg hword] at h
    split_ifs at h with hbyte hshort hlong
    · have hhead : (255 : UInt8) = UInt8.ofNat m := (List.cons.inj h).1
      have := congrArg UInt8.toNat hhead
      rw [UInt8.toNat_ofNat_of_lt' (by show m < 256; omega)] at this
      simp at this
      omega
    · exact absurd (List.cons.inj h).1 (by decide)
    · exact absurd (List.cons.inj h).1 (by decide)
    · omega

/-- A block that parses again has been read as a cut of the same bytes. -/
theorem recuts_of_parsed [Sha256] {block : ActiveBlock} {compact : CompactBlock}
    (hframed : Framed block.header) (h : toCompactBlock block.toRaw = .ok compact) :
    Recuts block.txs := by
  obtain ⟨header, cut, hsplit, -⟩ := toCompactBlock_splitBlock h
  obtain ⟨hlayout, hmax, -, hwhole⟩ := splitBlock_raw hsplit
  have hheader : header = block.header := by
    unfold splitBlock at hsplit
    simp only [ActiveBlock.toRaw, List.append_assoc, headerEnd_append hframed, Except.bind_eq_ok,
      Except.ok.injEq, Except.pure_eq_ok, Prod.mk.injEq] at hsplit
    obtain ⟨-, rfl, -, -, -, -, -, -, rfl, -⟩ := hsplit
    exact List.take_left
  have htail : writeCompactSize cut.length ++ cut.flatten
      = writeCompactSize block.txs.length ++ block.txs.flatten := by
    rw [hheader, ActiveBlock.toRaw, List.append_assoc, List.append_assoc] at hlayout
    exact List.append_cancel_left hlayout
  have hcount : block.txs.length ≤ 0x02000000 := by
    by_contra hlarge
    exact writeCompactSize_beyond (by omega) hmax htail.symm
  have hcut := readCompactSize_write hmax cut.flatten
  rw [htail, readCompactSize_write hcount] at hcut
  obtain ⟨hlength, hflatten⟩ := Prod.mk.inj (Except.ok.inj hcut)
  refine ⟨hcount, cut, hlength.symm, hflatten.symm, ?_⟩
  intro tx htx
  obtain ⟨parsed, hreads⟩ := hwhole tx htx
  exact ⟨parsed, by simpa using hreads []⟩

/-- **What parses again.**  A block whose coinbase is whole parses again exactly when its
transactions can be read back, and then to what it is. -/
theorem toCompactBlock_recut [Sha256] {block : ActiveBlock} {coinbase : Bytes}
    {rest : List Bytes} {height : Nat} (hframed : Framed block.header)
    (htxs : block.txs = coinbase :: rest) (hwhole : Whole coinbase)
    (hheight : coinbaseHeightFromRaw coinbase = .ok height) (hrecuts : Recuts block.txs) :
    ∃ compact, toCompactBlock block.toRaw = .ok compact ∧ compact.height = height ∧
      compact.hash = sha256d block.header ∧ compact.prevHash = (block.header.drop 4).take 32 ∧
      compact.vtx.length = block.txs.length ∧ compact.chainMetadata = some {} := by
  obtain ⟨hcount, cut, hlength, hflatten, hcut⟩ := hrecuts
  obtain _ | ⟨first, others⟩ := cut
  · rw [htxs] at hlength
    simp at hlength
  have hfirst : first = coinbase := by
    have hsame : first ++ others.flatten = coinbase ++ rest.flatten := by
      rw [htxs] at hflatten
      exact hflatten
    exact (hcut first List.mem_cons_self).unique hwhole hsame
  have hraw : block.toRaw = ({ block with txs := first :: others } : ActiveBlock).toRaw := by
    simp only [ActiveBlock.toRaw, hlength, hflatten]
  rw [hraw, ← hlength]
  exact toCompactBlock_toRaw hframed rfl (by rw [hfirst]; exact hheight) hcut
    (by rw [hlength]; exact hcount)

/-! ### Changes a header survives

The lengths in a header are where its solution starts.  Neither the link nor the byte
that mining counts up lies there.
-/

omit [Librustzcash] [LawfulLibrustzcash] in
theorem Framed.of_drop {header header' : Bytes} (h : Framed header)
    (hlength : header'.length = header.length)
    (hdrop : header'.drop headerPrefixLen = header.drop headerPrefixLen) : Framed header' := by
  obtain ⟨n, solution, hmax, hsolution, hlong, heq⟩ := h
  exact ⟨n, solution, hmax, hsolution, by rw [hlength]; exact hlong, by rw [hdrop]; exact heq⟩

omit [Librustzcash] [LawfulLibrustzcash] in
theorem Framed.modify {header : Bytes} (h : Framed header) (f : UInt8 → UInt8) :
    Framed (header.modify 68 f) := by
  refine h.of_drop (List.length_modify ..) ?_
  refine List.ext_getElem? fun i => ?_
  rw [List.getElem?_drop, List.getElem?_drop, List.getElem?_modify]
  have hne : ¬ 68 = headerPrefixLen + i := by
    unfold headerPrefixLen
    omega
  simp [hne]

omit [Librustzcash] [LawfulLibrustzcash] in
theorem Framed.writePrevHash {header hash : Bytes} (h : Framed header) (hhash : hash.length = 32) :
    Framed (writePrevHash header hash) := by
  have hlong : headerPrefixLen ≤ header.length := by
    obtain ⟨_, _, -, -, hlong, -⟩ := h
    exact hlong
  unfold headerPrefixLen at hlong
  refine h.of_drop (writePrevHash_length (by omega) hhash) ?_
  have hfront : (header.take 4 ++ hash).length = 36 := by
    rw [List.length_append, List.length_take, hhash]
    omega
  unfold Lightwalletd.writePrevHash headerPrefixLen
  rw [show 140 = (header.take 4 ++ hash).length + 104 by omega, List.drop_length_add_append,
    List.drop_drop, hfront]

end

namespace DarksideState

section

variable [Librustzcash] [LawfulLibrustzcash] [Sha256]

/-! ### Properties of a block

What is to hold of a header and its transactions has to survive being split, linked and
counted up, and over a run that is enough.
-/

/-- A property of a header and transactions that the operations keep, as long as every
mined transaction has the property `T`. -/
structure BlockRule (T : Bytes → Prop) (Q : Bytes → List Bytes → Prop) : Prop where
  split : ∀ raw header coinbase rest, splitBlock raw = .ok (header, coinbase :: rest) →
    Q header (coinbase :: rest)
  mine : ∀ header txs raw, T raw → Q header txs → Q (header.modify 68 (· + 1)) (txs ++ [raw])
  link : ∀ header txs hash, hash.length = 32 → Q header txs → Q (writePrevHash header hash) txs

/-- Every active block has the one, every staged transaction the other. -/
structure BlocksHave (T : Bytes → Prop) (Q : Bytes → List Bytes → Prop) (s : DarksideState) :
    Prop where
  blocks : ∀ block ∈ s.active, Q block.header block.txs
  txs : ∀ tx ∈ s.stagedTxs, T tx.2

variable {T : Bytes → Prop} {Q : Bytes → List Bytes → Prop}

omit [LawfulLibrustzcash] [Sha256] in
theorem BlockRule.addBlock (rule : BlockRule T Q) {s : DarksideState} (raw : Bytes)
    (h : BlocksHave T Q s) : BlocksHave T Q (s.addBlockActive raw).1 := by
  rcases addBlockActive_cases s raw with ⟨e, heq⟩ |
    ⟨header, coinbase, rest, height, sizes, hsplit, -, -, -, -, heq⟩
  · rw [heq]; exact h
  · rw [heq]
    refine ⟨?_, h.txs⟩
    intro block hblock
    rcases List.mem_append.mp hblock with hin | hin
    · exact h.blocks block (List.mem_of_mem_take hin)
    · rw [List.mem_singleton.mp hin]
      exact rule.split raw header coinbase rest hsplit

omit [LawfulLibrustzcash] [Sha256] in
theorem BlockRule.mineTransaction (rule : BlockRule T Q) {s : DarksideState} {raw : Bytes}
    (hraw : T raw) (height : Nat) (h : BlocksHave T Q s) :
    BlocksHave T Q (s.mineTransaction height raw).1 := by
  rcases mineTransaction_cases s height raw with ⟨e, heq⟩ | ⟨counts, -, -, -, heq⟩
  · rw [heq]; exact h
  · rw [heq]
    refine ⟨?_, h.txs⟩
    intro block hblock
    obtain ⟨mined, hmined, hheader, htxs⟩ := mem_growFrom hblock
    obtain ⟨old, hold, hcases⟩ := mem_modify hmined
    rw [hheader, htxs]
    rcases hcases with rfl | rfl
    · exact h.blocks mined hold
    · exact rule.mine _ _ raw hraw (h.blocks old hold)

omit [LawfulLibrustzcash] in
theorem BlockRule.setPrevhash (rule : BlockRule T Q) {active : List ActiveBlock}
    (h : ∀ block ∈ active, Q block.header block.txs) (prevHash : Option Bytes)
    (hprev : ∀ hash ∈ prevHash, hash.length = 32) :
    ∀ block ∈ setPrevhash prevHash active, Q block.header block.txs := by
  induction active generalizing prevHash with
  | nil => intro block hblock; cases hblock
  | cons first rest ih =>
      intro block hblock
      unfold Lightwalletd.setPrevhash at hblock
      rcases List.mem_cons.mp hblock with heq | hin
      · rw [heq]
        cases prevHash with
        | none => exact h first List.mem_cons_self
        | some hash => exact rule.link _ _ hash (hprev hash rfl) (h first List.mem_cons_self)
      · refine ih (fun block hblock => h block (List.mem_cons_of_mem _ hblock)) _ ?_ block hin
        intro hash hhash
        cases hhash
        exact sha256d_length _

omit [LawfulLibrustzcash] in
theorem BlockRule.applyStaged (rule : BlockRule T Q) {s : DarksideState} (h : BlocksHave T Q s)
    (targetHeight : Int) : BlocksHave T Q (s.applyStaged targetHeight).1 := by
  by_cases hreset : s.wasReset = true
  swap
  · simp only [DarksideState.applyStaged, hreset]
    exact h
  by_cases htarget : targetHeight < s.startHeight
  · simp only [DarksideState.applyStaged, hreset, htarget]
    exact h
  rw [applyStaged_eq hreset htarget]
  have hblocks : BlocksHave T Q s.applyStagedBlocks.1 :=
    applyStagedBlocks_keeps (fun s raw => rule.addBlock raw) ⟨h.blocks, h.txs⟩
  rcases hmerge : s.applyStagedBlocks with ⟨merged, _ | _⟩
  · rw [hmerge] at hblocks
    exact hblocks
  rw [hmerge] at hblocks
  have hmined : BlocksHave T Q merged.mineStagedTransactions.1 :=
    mineTransactions_keeps (s := { merged with stagedTxs := [] }) ⟨hblocks.blocks, by simp⟩
      merged.stagedTxs fun s tx htx => rule.mineTransaction (hblocks.txs tx htx) tx.1
  dsimp only at hmined ⊢
  rcases hmine : merged.mineStagedTransactions with ⟨mined, _ | _⟩
  · rw [hmine] at hmined
    exact hmined
  · rw [hmine] at hmined
    exact ⟨rule.setPrevhash hmined.blocks none (by simp), hmined.txs⟩

omit [LawfulLibrustzcash] [Sha256] in
theorem stageBlock_blocksHave {s : DarksideState} (raw : Bytes) (h : BlocksHave T Q s) :
    BlocksHave T Q (s.stageBlock raw).1 := by
  rcases stageBlock_cases s raw with ⟨e, heq⟩ | ⟨height, -, -, heq⟩
  · rw [heq]; exact h
  · rw [heq]; exact ⟨h.blocks, h.txs⟩

/-- The condition on an operation: a transaction it stages has the property. -/
def Stages (T : Bytes → Prop) (op : ControlOp) : Prop :=
  ∀ height raw, op = .stageTransaction height raw →
    (∃ counts, shieldedCounts raw = .ok counts) → T raw

omit [LawfulLibrustzcash] in
theorem BlockRule.control (rule : BlockRule T Q) {s : DarksideState} {op : ControlOp}
    (h : BlocksHave T Q s) (hop : Stages T op) : BlocksHave T Q (s.control op).1 := by
  rcases control_cases s op with ⟨info, rfl⟩ | ⟨raw, rfl⟩ | ⟨height, nonce, count, rfl⟩ |
    ⟨height, raw, rfl⟩ | ⟨targetHeight, rfl⟩ | hcore
  · exact ⟨by simp [DarksideState.control, reset, new], by simp [DarksideState.control, reset, new]⟩
  · exact stageBlock_blocksHave raw h
  · exact stageBlocksCreate_keeps (fun s raw => stageBlock_blocksHave raw) height nonce count h
  · show BlocksHave T Q (s.stageTransaction height raw).1
    rcases stageTransaction_cases s height raw with ⟨e, heq⟩ | ⟨counts, hcounts, heq⟩
    · rw [heq]; exact h
    · rw [heq]
      refine ⟨h.blocks, ?_⟩
      intro tx htx
      rcases List.mem_append.mp htx with hin | hin
      · exact h.txs tx hin
      · rw [List.mem_singleton.mp hin]
        exact hop height raw rfl ⟨counts, hcounts⟩
  · exact rule.applyStaged h targetHeight
  · simp only [core, Prod.mk.injEq] at hcore
    obtain ⟨-, -, -, -, hactive, -, htxs⟩ := hcore
    exact ⟨by rw [hactive]; exact h.blocks, by rw [htxs]; exact h.txs⟩

omit [LawfulLibrustzcash] in
theorem BlockRule.run (rule : BlockRule T Q) {ops : List ControlOp}
    (hops : ∀ op ∈ ops, Stages T op) :
    BlocksHave T Q (run .new ops) := by
  have hall : ∀ {s : DarksideState}, BlocksHave T Q s →
      BlocksHave T Q (DarksideState.run s ops) := by
    induction ops with
    | nil => exact fun h => h
    | cons op rest ih =>
        exact fun h => ih (fun op hin => hops op (List.mem_cons_of_mem _ hin))
          (rule.control h (hops op List.mem_cons_self))
  exact hall ⟨by simp [new], by simp [new]⟩

omit [Sha256] in
theorem sound_rule : BlockRule (fun _ => True)
    fun header txs => Framed header ∧ ∃ coinbase rest, txs = coinbase :: rest ∧ Whole coinbase where
  split := by
    intro raw header coinbase rest hsplit
    obtain ⟨hframed, hwhole⟩ := splitBlock_framed hsplit
    exact ⟨hframed, coinbase, rest, rfl, hwhole coinbase List.mem_cons_self⟩
  mine := by
    intro header txs raw _ h
    obtain ⟨hframed, coinbase, rest, rfl, hwhole⟩ := h
    exact ⟨hframed.modify _, coinbase, rest ++ [raw], rfl, hwhole⟩
  link header txs hash hhash h := ⟨h.1.writePrevHash hhash, h.2⟩

omit [Sha256] in
theorem whole_rule : BlockRule Whole fun _ txs => ∀ tx ∈ txs, Whole tx where
  split raw header coinbase rest hsplit := (splitBlock_framed hsplit).2
  mine := by
    intro header txs raw hraw h tx htx
    rcases List.mem_append.mp htx with hin | hin
    · exact h tx hin
    · rw [List.mem_singleton.mp hin]
      exact hraw
  link header txs hash hhash h := h

/-! ### The node of the mock chain -/

/-- The active headers have different hashes. -/
def Distinct (s : DarksideState) : Prop := (s.active.map (·.hash)).Nodup

omit [Librustzcash] [LawfulLibrustzcash] in
theorem blockRawByHash_eq {s : DarksideState} (hdistinct : Distinct s) {block : ActiveBlock}
    (hblock : block ∈ s.active) : s.blockRawByHash block.displayHash = .ok block.toRaw := by
  unfold blockRawByHash
  rcases hfind : s.active.find? (·.displayHash = block.displayHash) with _ | found
  · have := List.find?_eq_none.mp hfind block hblock
    simp at this
  · have hsame : found.displayHash = block.displayHash := by simpa using List.find?_some hfind
    obtain rfl := List.inj_on_of_nodup_map hdistinct (List.mem_of_find?_eq_some hfind) hblock
      (wireToDisplayHex_inj hsame)
    simp only [hfind]

omit [Librustzcash] [LawfulLibrustzcash] [Sha256] in
theorem blockAt_eq {s : DarksideState} (htip : s.latestHeight ≤ s.startHeight + s.active.length - 1)
    {height : Nat} (hlow : s.startHeight ≤ height) (hhigh : (height : Int) ≤ s.latestHeight) :
    ∃ block, s.active[height - s.startHeight]? = some block ∧ s.blockAt height = .ok block := by
  have hlt : height - s.startHeight < s.active.length := by omega
  have hget : s.active[height - s.startHeight]? = some s.active[height - s.startHeight] :=
    List.getElem?_eq_getElem hlt
  have hne : s.active ≠ [] := List.ne_nil_of_length_pos (by omega)
  refine ⟨_, hget, ?_⟩
  unfold blockAt
  rw [if_neg, if_neg (by omega), hget]
  simp only [List.isEmpty_iff, hne, false_or, not_or]
  omega

omit [LawfulLibrustzcash] in
/-- What a fetch from the mock node has been told and has checked. -/
theorem compactBlock_node {s : DarksideState} {height : Nat} {block : ActiveBlock}
    (hat : s.blockAt height = .ok block)
    (hraw : s.blockRawByHash block.displayHash = .ok block.toRaw) (compact : CompactBlock) :
    compactBlock (s.node height) height = .ok compact ↔
      ∃ parsed, toCompactBlock block.toRaw = .ok parsed ∧ parsed.height = height ∧
        parsed.hash = block.hash ∧ compact = { parsed with
          chainMetadata := parsed.chainMetadata.map fun _ => {
            saplingCommitmentTreeSize := block.sizes.1.toNat
            orchardCommitmentTreeSize := block.sizes.2.1.toNat
            ironwoodCommitmentTreeSize := block.sizes.2.2.toNat } } := by
  have hverbose : (s.node height).verbose = .ok ⟨block.displayHash, [], block.sizes.1.toNat,
      block.sizes.2.1.toNat, block.sizes.2.2.toNat⟩ := by
    simp only [node, blockVerbose, hat]
    rfl
  have hbytes : (s.node height).raw block.displayHash = .ok block.toRaw := by
    simp only [node, hraw]
    rfl
  unfold compactBlock
  simp only [hverbose, Except.bind_eq_ok, Except.mapError_eq_ok, Except.ensure_eq_ok,
    Except.pure_eq_ok, Except.ok.injEq]
  constructor
  · rintro ⟨_, rfl, raw, hfetched, parsed, hparsed, -, hheight, -, hhash, -, -, rfl⟩
    rw [hbytes] at hfetched
    cases hfetched
    refine ⟨parsed, ?_, hheight, wireToDisplayHex_inj hhash, rfl⟩
    exact Except.mapError_eq_ok.mp hparsed
  · rintro ⟨parsed, hparsed, hheight, hhash, rfl⟩
    refine ⟨_, rfl, block.toRaw, hbytes, parsed, ?_, (), hheight, (), ?_, (), ?_, rfl⟩
    · exact Except.mapError_eq_ok.mpr hparsed
    · rw [hhash]
      rfl
    · rfl

/-- The block is served at a height: with that height, the hash of its header, its
transactions and tree sizes, and naming the block served below it. -/
def Served (s : DarksideState) (height : Nat) (block : ActiveBlock) : Prop :=
  ∃ compact, compactBlock (s.node height) height = .ok compact ∧ compact.height = height ∧
    compact.hash = sha256d block.header ∧ compact.vtx.length = block.txs.length ∧
    compact.chainMetadata = some {
      saplingCommitmentTreeSize := block.sizes.1.toNat
      orchardCommitmentTreeSize := block.sizes.2.1.toNat
      ironwoodCommitmentTreeSize := block.sizes.2.2.toNat } ∧
    (s.startHeight < height → ∀ lower,
      compactBlock (s.node (height - 1)) (height - 1) = .ok lower → compact.prevHash = lower.hash)

/-- On an intact chain, a presented block is served exactly if it can be read back. -/
theorem served_iff {s : DarksideState} (hsound : BlocksHave (fun _ => True) (fun header txs =>
      Framed header ∧ ∃ coinbase rest, txs = coinbase :: rest ∧ Whole coinbase) s)
    (htallied : Tallied s.startHeight s.startSizes s.active) (hintact : Intact s)
    (hdistinct : Distinct s) {height : Nat} (hlow : s.startHeight ≤ height)
    (hhigh : (height : Int) ≤ s.latestHeight) :
    ∃ block, s.active[height - s.startHeight]? = some block ∧
      (Served s height block ↔ Recuts block.txs) := by
  have htip : s.latestHeight ≤ s.startHeight + s.active.length - 1 := by
    rcases hintact.tip with hnone | hon
    · omega
    · exact hon.2
  obtain ⟨block, hget, hat⟩ := blockAt_eq htip hlow hhigh
  have hmem := List.mem_of_getElem? hget
  have hnode := compactBlock_node hat (blockRawByHash_eq hdistinct hmem)
  obtain ⟨hframed, first, others, hfirst, hwhole⟩ := hsound.blocks block hmem
  obtain ⟨⟨coinbase, rest, htxs, hheight⟩, -, -⟩ := htallied.at hget
  rw [show s.startHeight + (height - s.startHeight) = height by omega] at hheight
  obtain ⟨rfl, rfl⟩ : first = coinbase ∧ others = rest := by
    rw [htxs] at hfirst
    exact ⟨(List.cons.inj hfirst).1.symm, (List.cons.inj hfirst).2.symm⟩
  refine ⟨block, hget, ?_, ?_⟩
  · rintro ⟨compact, hcompact, -⟩
    obtain ⟨parsed, hparsed, -⟩ := (hnode compact).mp hcompact
    exact recuts_of_parsed hframed hparsed
  · intro hrecuts
    obtain ⟨parsed, hparsed, hparsedHeight, hhash, hprev, hcount, hmeta⟩ :=
      toCompactBlock_recut hframed htxs hwhole hheight hrecuts
    refine ⟨_, (hnode _).mpr ⟨parsed, hparsed, hparsedHeight, hhash, rfl⟩, hparsedHeight, hhash,
      hcount, ?_, ?_⟩
    · simp only [hmeta, Option.map_some]
    · intro habove lower hlower
      obtain ⟨below, hbelow, hatBelow⟩ := blockAt_eq htip
        (show s.startHeight ≤ height - 1 by omega) (by omega)
      obtain ⟨parsedBelow, -, -, hhashBelow, rfl⟩ := (compactBlock_node hatBelow
        (blockRawByHash_eq hdistinct (List.mem_of_getElem? hbelow)) lower).mp hlower
      show parsed.prevHash = parsedBelow.hash
      rw [hprev, hhashBelow]
      refine hintact.linked (height - 1 - s.startHeight) below block hbelow ?_
      rw [show height - 1 - s.startHeight + 1 = height - s.startHeight by omega]
      exact hget

/--
**When what is presented can be served.**  After any operations and a successful
application, on headers with different hashes: a presented height has its active
block, and the block is served exactly if its transactions, one behind the other,
read back as that many whole ones.  If every transaction that was staged by itself
is read to its end, that is so of every block the parser can count.
-/
theorem presented_served (ops : List ControlOp) (targetHeight : Int) (s : DarksideState)
    (happlied : (run .new ops).applyStaged targetHeight = (s, .ok ())) (hdistinct : Distinct s) :
    (∀ height : Nat, s.startHeight ≤ height → (height : Int) ≤ s.latestHeight →
      ∃ block, s.active[height - s.startHeight]? = some block ∧
        (Served s height block ↔ Recuts block.txs)) ∧
    ((∀ op ∈ ops, Stages Whole op) →
      ∀ height : Nat, s.startHeight ≤ height → (height : Int) ≤ s.latestHeight →
        ∃ block, s.active[height - s.startHeight]? = some block ∧
          (block.txs.length ≤ 0x02000000 → Served s height block)) := by
  have hs : s = ((run .new ops).applyStaged targetHeight).1 := by rw [happlied]
  have hintact : Intact s := by
    rw [hs]
    exact intact_of_applied (staged_kept.run ops) (by rw [happlied])
  have htallied : Tallied s.startHeight s.startSizes s.active := by
    rw [hs]
    exact tallied_kept.applyStaged (tallied_kept.run ops) targetHeight
  have hsound := sound_rule.applyStaged (sound_rule.run fun op _ _ _ _ _ => trivial) targetHeight
    (s := run .new ops)
  rw [← hs] at hsound
  refine ⟨fun height hlow hhigh => served_iff hsound htallied hintact hdistinct hlow hhigh, ?_⟩
  intro hops height hlow hhigh
  have hwhole := whole_rule.applyStaged (whole_rule.run hops) targetHeight
  rw [← hs] at hwhole
  obtain ⟨block, hget, hiff⟩ := served_iff hsound htallied hintact hdistinct hlow hhigh
  refine ⟨block, hget, ?_⟩
  intro hcount
  exact hiff.mpr (Recuts.of_whole hcount (hwhole.blocks block (List.mem_of_getElem? hget)))

end

/-- A block, and a transaction with a byte behind it staged to be mined into it. -/
def trailedChain : List ControlOp :=
  [.reset ⟨1, "76b809bb", "main", (0, 0, 0)⟩, .stageBlock (mockBlock 1),
    .stageTransaction 1 (coinbaseTx 0x57 ++ [0])]

/-- The application succeeds, and the block it presents does not parse. -/
theorem trailedChain_unserved :
    ¬ ∀ (ops : List ControlOp) (targetHeight : Int) (s : DarksideState),
      (run .new ops).applyStaged targetHeight = (s, .ok ()) → Distinct s →
      ∀ height : Nat, s.startHeight ≤ height → (height : Int) ≤ s.latestHeight →
        ∃ block, s.active[height - s.startHeight]? = some block ∧ Served s height block := by
  intro h
  have hresult : ((run .new trailedChain).applyStaged 1).2 = .ok () := by decide +kernel
  have hstate : ((run .new trailedChain).applyStaged 1).1.startHeight = 1 ∧
      ((run .new trailedChain).applyStaged 1).1.latestHeight = 1 := by decide +kernel
  have hfetch : compactBlock (((run .new trailedChain).applyStaged 1).1.node 1) 1
      = .error (.parse .trailingData) := by decide +kernel
  have hdistinct : Distinct ((run .new trailedChain).applyStaged 1).1 := by
    unfold Distinct
    decide +kernel
  revert hresult hstate hfetch hdistinct
  rcases happlied : (run .new trailedChain).applyStaged 1 with ⟨s, result⟩
  intro hresult hstate hfetch hdistinct
  dsimp only at hresult hstate hfetch hdistinct
  rw [hresult] at happlied
  obtain ⟨-, -, compact, hcompact, -⟩ := h trailedChain 1 s happlied hdistinct 1 (by omega)
    (by omega)
  rw [hfetch] at hcompact
  cases hcompact

/-- Without the byte behind it. -/
theorem minedChain_served :
    ∃ s block, (run .new (minedChain.take 4)).applyStaged 2 = (s, .ok ()) ∧ s.latestHeight = 2 ∧
      s.active[0]? = some block ∧ block.txs = [coinbaseTx 0x51, coinbaseTx 0x57] ∧
      Served s 1 block := by
  have hresult : ((run .new (minedChain.take 4)).applyStaged 2).2 = .ok () := by decide +kernel
  have hstate : ((run .new (minedChain.take 4)).applyStaged 2).1.startHeight = 1 ∧
      ((run .new (minedChain.take 4)).applyStaged 2).1.latestHeight = 2 := by decide +kernel
  have htxs : ((run .new (minedChain.take 4)).applyStaged 2).1.active[0]?.map (·.txs)
      = some [coinbaseTx 0x51, coinbaseTx 0x57] := by decide +kernel
  have hdistinct : Distinct ((run .new (minedChain.take 4)).applyStaged 2).1 := by
    unfold Distinct
    decide +kernel
  have hstages : ∀ op ∈ minedChain.take 4, Stages Whole op := by
    intro op hop height raw heq _
    rw [heq] at hop
    simp only [minedChain, List.take_succ_cons, List.take_zero, List.mem_cons, List.not_mem_nil,
      ControlOp.stageTransaction.injEq, reduceCtorEq, false_or, or_false] at hop
    rw [hop.2]
    exact ⟨_, rfl⟩
  revert hresult hstate htxs hdistinct
  rcases happlied : (run .new (minedChain.take 4)).applyStaged 2 with ⟨s, result⟩
  intro hresult hstate htxs hdistinct
  dsimp only at hresult hstate htxs hdistinct
  rw [hresult] at happlied
  obtain ⟨block, hblock, hserved⟩ := (presented_served (minedChain.take 4) 2 s happlied
    hdistinct).2 hstages 1 (by omega) (by omega)
  rw [hstate.1] at hblock
  rw [hblock] at htxs
  have hlist : block.txs = [coinbaseTx 0x51, coinbaseTx 0x57] := by simpa using htxs
  exact ⟨s, block, by rw [hresult], hstate.2, hblock, hlist, hserved (by rw [hlist]; decide)⟩

end DarksideState

end Lightwalletd
