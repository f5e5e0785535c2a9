/-
Splitting a raw block, and parsing it.

`splitBlock` and `toCompactBlock` walk the same bytes, one to keep them and one to
read them.  What the first cuts out is exactly what it was given (`splitBlock_raw`),
and when the second accepts a block the first cuts the same transactions out of it
(`readVtx_splitTxs`), by induction over the transactions in both cases.

The last part is that neither panics.  The indexed versions are rewritten into the
plain ones, operation by operation: each slice is in range because a reader leaves a
suffix of what it was given, and no sum overflows because a byte string is shorter
than half a word.
-/
import Lightwalletd.Codec
import Lightwalletd.Indexed

namespace Lightwalletd

section

variable [Librustzcash] [LawfulLibrustzcash]

/-! ### What the library leaves

The library tells where a transaction ends, and what it makes of the bytes does not
depend on what follows them.
-/

theorem readTransaction_split {bytes rest : Bytes} {tx : Transaction}
    (h : Librustzcash.readTransaction bytes = .ok (tx, rest)) :
    bytes = bytes.take (bytes.length - rest.length) ++ rest ∧
      ∀ other, Librustzcash.readTransaction (bytes.take (bytes.length - rest.length) ++ other)
        = .ok (tx, other) :=
  LawfulLibrustzcash.transaction.take_eq h

private theorem readTransaction_suffix {bytes rest : Bytes} {tx : Transaction}
    (h : Librustzcash.readTransaction bytes = .ok (tx, rest)) : rest <:+ bytes :=
  ⟨_, (readTransaction_split h).1.symm⟩

theorem readCompactSize_split {bytes rest : Bytes} {n : Nat}
    (h : Librustzcash.readCompactSize bytes = .ok (n, rest)) :
    n ≤ 0x02000000 ∧ bytes = writeCompactSize n ++ rest :=
  (LawfulLibrustzcash.compactSize bytes n rest).mp h

theorem readCompactSize_suffix {bytes rest : Bytes} {n : Nat}
    (h : Librustzcash.readCompactSize bytes = .ok (n, rest)) : rest <:+ bytes :=
  ⟨_, (readCompactSize_split h).2.symm⟩

/-! ### The header -/

omit [LawfulLibrustzcash] in
theorem headerEnd_bounds {raw : Bytes} {stop : Nat} (h : headerEnd raw = .ok stop) :
    headerPrefixLen ≤ stop ∧ stop ≤ raw.length := by
  unfold headerEnd at h
  simp only [Except.bind_eq_ok, Except.ensure_eq_ok, Except.pure_eq_ok] at h
  obtain ⟨-, -, ⟨solutionLen, rest⟩, -, -, hstop, rfl⟩ := h
  exact ⟨by omega, hstop⟩

/-! ### The transactions -/

/-- The cut transactions make up what was cut, and each of them reads the same alone. -/
theorem splitTxs_eq_ok {count : Nat} {bytes last : Bytes} {txs : List Bytes}
    (h : splitTxs count bytes = .ok (txs, last)) :
    txs.length = count ∧ bytes = txs.flatten ++ last ∧
      ∀ tx ∈ txs, ∃ parsed, ∀ other,
        Librustzcash.readTransaction (tx ++ other) = .ok (parsed, other) := by
  induction count generalizing bytes txs with
  | zero =>
      cases h
      exact ⟨rfl, rfl, by simp⟩
  | succ count ih =>
      unfold splitTxs at h
      simp only [Except.bind_eq_ok, Except.mapError_eq_ok, Except.pure_eq_ok, Prod.mk.injEq] at h
      obtain ⟨⟨parsed, rest⟩, hread, ⟨others, final⟩, hothers, rfl, rfl⟩ := h
      obtain ⟨hlength, hbytes, hreads⟩ := ih hothers
      obtain ⟨hsplit, halone⟩ := readTransaction_split hread
      refine ⟨by rw [List.length_cons, hlength], ?_, ?_⟩
      · rw [List.flatten_cons, List.append_assoc, ← hbytes]
        exact hsplit
      · intro tx htx
        rcases List.mem_cons.mp htx with rfl | hin
        · exact ⟨parsed, halone⟩
        · exact hreads tx hin

theorem splitBlock_raw {raw header : Bytes} {txs : List Bytes}
    (h : splitBlock raw = .ok (header, txs)) :
    header ++ writeCompactSize txs.length ++ txs.flatten = raw ∧ txs.length ≤ 0x02000000 ∧
      headerPrefixLen ≤ header.length ∧ ∀ tx ∈ txs, ∃ parsed, ∀ other,
        Librustzcash.readTransaction (tx ++ other) = .ok (parsed, other) := by
  unfold splitBlock at h
  simp only [Except.bind_eq_ok, Except.ensure_eq_ok, Except.mapError_eq_ok, Except.pure_eq_ok,
    Prod.mk.injEq] at h
  obtain ⟨stop, hstop, ⟨txCount, rest⟩, hcount, ⟨cut, last⟩, hcut, -, hlast, rfl, rfl⟩ := h
  obtain ⟨hmax, htail⟩ := readCompactSize_split hcount
  obtain ⟨hlength, hbytes, hreads⟩ := splitTxs_eq_ok hcut
  obtain ⟨hlow, hhigh⟩ := headerEnd_bounds hstop
  simp only at hlast hlength hbytes hreads ⊢
  rw [hlast, List.append_nil] at hbytes
  refine ⟨?_, by rw [hlength]; exact hmax, by rw [List.length_take]; omega, hreads⟩
  rw [hlength, ← hbytes, List.append_assoc, ← htail, List.take_append_drop]

omit [LawfulLibrustzcash] in
theorem readVtx_succ (count index : Nat) (height : Option Nat) (bytes : Bytes) :
    readVtx (count + 1) index height bytes =
      ((Librustzcash.readTransaction bytes).mapError .io >>= fun read =>
        (if index = 0 then (coinbaseHeight read.1).map some else .ok height) >>= fun height =>
          readVtx count (index + 1) height read.2 >>= fun later =>
            .ok (toCompactTx index read.1 (index = 0) :: later.1, later.2.1, later.2.2)) := by
  rw [readVtx]
  refine bind_congr fun read => ?_
  obtain ⟨tx, rest⟩ := read
  dsimp only
  split_ifs <;> rfl

/-- Where the parser gets through, the splitter cuts the same transactions. -/
theorem readVtx_splitTxs {count index : Nat} {height height' : Option Nat} {bytes last : Bytes}
    {vtx : List CompactTx} (h : readVtx count index height bytes = .ok (vtx, height', last)) :
    ∃ txs, splitTxs count bytes = .ok (txs, last) ∧ txs.length = vtx.length ∧
      ∀ i tx, txs[i]? = some tx → ∃ parsed, Librustzcash.readTransaction tx = .ok (parsed, []) ∧
        vtx[i]? = some (toCompactTx (index + i) parsed (index + i = 0)) := by
  induction count generalizing index height bytes vtx with
  | zero =>
      cases h
      exact ⟨[], rfl, rfl, by simp⟩
  | succ count ih =>
      rw [readVtx_succ] at h
      simp only [Except.bind_eq_ok, Except.mapError_eq_ok, Except.ok.injEq, Prod.mk.injEq] at h
      obtain ⟨⟨parsed, rest⟩, hread, height₁, -, ⟨others, height₂, final⟩, hothers, rfl,
          rfl, rfl⟩ :=
        h
      obtain ⟨txs, hsplit, hlength, hvtx⟩ := ih hothers
      refine ⟨bytes.take (bytes.length - rest.length) :: txs, ?_, by simp [hlength], ?_⟩
      · unfold splitTxs
        simp only [Except.bind_eq_ok, Except.mapError_eq_ok, Except.pure_eq_ok, Prod.mk.injEq]
        exact ⟨(parsed, rest), hread, (txs, final), hsplit, rfl, rfl⟩
      · intro i tx htx
        cases i with
        | zero =>
            cases htx
            refine ⟨parsed, ?_, rfl⟩
            simpa using (readTransaction_split hread).2 []
        | succ i =>
            obtain ⟨p, hp, hv⟩ := hvtx i tx htx
            refine ⟨p, hp, ?_⟩
            rw [List.getElem?_cons_succ, hv]
            rw [show index + 1 + i = index + (i + 1) by omega]

/-- A parsed block is a split block: its hash and its link are the header's, and each
of its transactions is what that transaction alone parses to. -/
theorem toCompactBlock_splitBlock [Sha256] {raw : Bytes} {block : CompactBlock}
    (h : toCompactBlock raw = .ok block) :
    ∃ header txs, splitBlock raw = .ok (header, txs) ∧ txs.length = block.vtx.length ∧
      block.hash = sha256d header ∧ block.prevHash = (header.drop 4).take 32 ∧
      ∀ i tx, txs[i]? = some tx → ∃ compact, compactTxFromRaw i tx = .ok compact ∧
        block.vtx[i]? = some (if i = 0 then { compact with vin := [] } else compact) := by
  unfold toCompactBlock at h
  simp only [Except.bind_eq_ok, Except.ensure_eq_ok, Except.mapError_eq_ok] at h
  obtain ⟨stop, hstop, ⟨txCount, rest⟩, hcount, ⟨vtx, height, last⟩, hvtx, -, hlast, hblock⟩ := h
  obtain ⟨txs, hsplit, hlength, hparsed⟩ := readVtx_splitTxs hvtx
  obtain ⟨hlow, -⟩ := headerEnd_bounds hstop
  cases height with
  | none => cases hblock
  | some height =>
      cases hblock
      refine ⟨raw.take stop, txs, ?_, hlength, rfl, ?_, ?_⟩
      · unfold splitBlock
        simp only [Except.bind_eq_ok, Except.ensure_eq_ok, Except.mapError_eq_ok,
          Except.pure_eq_ok]
        exact ⟨stop, hstop, (txCount, rest), hcount, (txs, last), hsplit, (), hlast, rfl⟩
      · show (raw.drop 4).take 32 = ((raw.take stop).drop 4).take 32
        unfold headerPrefixLen at hlow
        rw [List.drop_take, List.take_take, Nat.min_eq_left (by omega)]
      · intro i tx htx
        obtain ⟨parsed, hread, hv⟩ := hparsed i tx htx
        refine ⟨toCompactTx i parsed false, ?_, ?_⟩
        · unfold compactTxFromRaw
          rw [hread]
          rfl
        · rw [show 0 + i = i from Nat.zero_add i] at hv
          show vtx[i]? = _
          rw [hv]
          by_cases hi : i = 0
          · simp [hi, toCompactTx]
          · simp [hi]

/-! ### No panic

The parsers with their slices and sums written out are compared with the plain ones,
part by part.  Each cursor stays within the block.
-/

open Checked

omit [Librustzcash] [LawfulLibrustzcash] in
theorem coinbaseHeightIndexed_eq (tx : Transaction) :
    coinbaseHeightIndexed tx = lift (coinbaseHeight tx) := by
  unfold coinbaseHeightIndexed coinbaseHeight
  rcases tx.transparentBundle.bind (·.vin.head?) with _ | input
  · rfl
  rcases hscript : input.scriptSig with _ | ⟨first, script⟩
  · simp only [hscript, List.head?_nil]
  simp only [hscript, List.head?_cons, List.length_cons]
  by_cases hzero : first = 0x00
  · simp only [hzero, if_true]
    rfl
  by_cases hsmall : 0x51 ≤ first ∧ first ≤ 0x60
  · have hle : 0x50 ≤ first.toNat := by
      have := UInt8.le_iff_toNat_le.mp hsmall.1
      simp at this
      omega
    simp only [hzero, hsmall, and_self, if_true, if_false, sub_eq hle]
    rfl
  have hlt : script.length + 1 < 1 + first.toNat ↔ script.length < first.toNat := by omega
  simp only [hzero, hsmall, if_false, hlt]
  by_cases hlong : first.toNat > 8 ∨ script.length < first.toNat
  · simp only [hlong, if_true]
    rfl
  · simp only [hlong, if_false]
    push Not at hlong
    obtain ⟨hmax, hfits⟩ := hlong
    have hpad : ∀ n, ofLeBytes (script.take first.toNat ++ List.replicate n 0)
        = ofLeBytes (script.take first.toNat) := by
      intro n
      exact ofLeBytes_append_zeros _ n
    rw [slice_eq (Nat.zero_le _) (by simpa using hmax), lift_ok_bind,
      slice_eq (by omega) (by simp only [List.length_cons]; omega), lift_ok_bind]
    simp only [List.drop_succ_cons, List.drop_zero, Nat.add_sub_cancel_left, List.drop_replicate,
      hpad]
    rfl

omit [Librustzcash] [LawfulLibrustzcash] in
theorem toCompactTxIndexed_eq {tx : Transaction} (h : tx.Ciphertexts) (index : Nat)
    (isCoinbase : Bool) :
    toCompactTxIndexed index tx isCoinbase = lift (.ok (toCompactTx index tx isCoinbase)) := by
  have haction : ∀ action : ShieldedAction, action.encCiphertext.length = 580 →
      action.compactIndexed = lift (.ok action.compact) := by
    intro action hlength
    unfold ShieldedAction.compactIndexed ShieldedAction.compact
    rw [slice_eq (Nat.zero_le _) (by rw [hlength]; decide)]
    rfl
  have hactions : ∀ bundle : Option (List ShieldedAction),
      (∀ actions ∈ bundle, ∀ action ∈ actions, action.encCiphertext.length = 580) →
      (bundle.getD []).mapM (·.compactIndexed) =
        lift (.ok ((bundle.getD []).map (·.compact))) := by
    intro bundle hbundle
    refine mapM_eq ?_
    intro action hin
    cases bundle with
    | none => cases hin
    | some actions => exact haction action (hbundle actions rfl action hin)
  have houtputs : ((tx.saplingBundle.map (·.shieldedOutputs)).getD []).mapM (·.compactIndexed) =
      lift (.ok (toCompactTx index tx isCoinbase).outputs) := by
    refine mapM_eq ?_
    intro output hin
    have hlength : output.encCiphertext.length = 580 := by
      cases hbundle : tx.saplingBundle with
      | none => simp [hbundle] at hin
      | some bundle => exact h.sapling bundle hbundle output (by simpa [hbundle] using hin)
    unfold SaplingOutput.compactIndexed
    rw [slice_eq (Nat.zero_le _) (by rw [hlength]; decide)]
    rfl
  unfold toCompactTxIndexed
  rw [houtputs, lift_ok_bind, hactions _ h.orchard, lift_ok_bind, hactions _ h.ironwood,
    lift_ok_bind]
  rfl

theorem headerEndIndexed_eq {raw : Bytes} (hraw : raw.length < 2 ^ 63) :
    headerEndIndexed raw = lift (headerEnd raw) := by
  unfold headerEndIndexed headerEnd
  refine lift_bind fun _ hensure => ?_
  have hlong := Except.ensure_eq_ok.mp hensure
  rw [slice_to_end hlong, lift_ok_bind]
  refine lift_bind fun read hread => ?_
  obtain ⟨solutionLen, rest⟩ := read
  obtain ⟨hmax, -⟩ := readCompactSize_split (Except.mapError_eq_ok.mp hread)
  have hlength : (raw.drop headerPrefixLen).length ≤ raw.length := by simp
  unfold headerPrefixLen at hlength ⊢
  dsimp only
  rw [add_eq (by omega), lift_ok_bind, add_eq (by omega), lift_ok_bind]
  exact lift_bind fun _ _ => rfl

theorem readVtxIndexed_eq (count index : Nat) (height : Option Nat) (bytes : Bytes) :
    readVtxIndexed count index height bytes = lift (readVtx count index height bytes) := by
  induction count generalizing index height bytes with
  | zero => rfl
  | succ count ih =>
      rw [readVtx_succ]
      unfold readVtxIndexed
      refine lift_bind fun read hread => ?_
      obtain ⟨tx, rest⟩ := read
      have hcipher := LawfulLibrustzcash.ciphertexts bytes tx rest (Except.mapError_eq_ok.mp hread)
      have hlater : ∀ height : Option Nat,
          (toCompactTxIndexed index tx (index = 0) >>= fun compact =>
            readVtxIndexed count (index + 1) height rest >>= fun later =>
              (pure (compact :: later.1, later.2.1, later.2.2) :
                Checked ParseError (List CompactTx × Option Nat × Bytes))) =
          lift (readVtx count (index + 1) height rest >>= fun later =>
            .ok (toCompactTx index tx (index = 0) :: later.1, later.2.1, later.2.2)) := by
        intro height
        rw [toCompactTxIndexed_eq hcipher, lift_ok_bind, ih]
        exact lift_bind fun _ _ => rfl
      by_cases hindex : index = 0
      · simp only [hindex, if_true]
        rw [coinbaseHeightIndexed_eq]
        cases hheight : coinbaseHeight tx with
        | error e => rfl
        | ok height =>
            have := hlater (some height)
            rw [hindex] at this
            exact this
      · simp only [hindex, if_false]
        have := hlater height
        simp only [hindex] at this
        exact this

/-- The loop of the splitter keeps its cursor within the block. -/
theorem splitTxsIndexed_eq {raw : Bytes} {stop : Nat} (hraw : raw.length < 2 ^ 63)
    (hstop : stop ≤ raw.length) (count : Nat) {bytes : Bytes} (hbytes : bytes <:+ raw.drop stop) :
    splitTxsIndexed raw stop (raw.drop stop) count bytes = lift (splitTxs count bytes) := by
  induction count generalizing bytes with
  | zero => rfl
  | succ count ih =>
      unfold splitTxsIndexed splitTxs
      refine lift_bind fun read hread => ?_
      obtain ⟨tx, rest⟩ := read
      have hrest := readTransaction_suffix (Except.mapError_eq_ok.mp hread)
      have hlength : (raw.drop stop).length = raw.length - stop := List.length_drop
      have hle := hbytes.length_le
      have hle' := hrest.length_le
      obtain ⟨front, hfront⟩ := hbytes
      have hpos : (raw.drop stop).length - bytes.length = front.length := by
        rw [← hfront, List.length_append]
        omega
      have hcut : (raw.drop (stop + ((raw.drop stop).length - bytes.length))).take
          ((stop + ((raw.drop stop).length - rest.length))
            - (stop + ((raw.drop stop).length - bytes.length)))
          = bytes.take (bytes.length - rest.length) := by
        rw [← List.drop_drop, hpos, ← hfront, List.drop_left, List.length_append]
        congr 1
        omega
      dsimp only
      rw [add_eq (by omega), lift_ok_bind, add_eq (by omega), lift_ok_bind,
        slice_eq (by omega) (by omega), lift_ok_bind, hcut,
        ih (hrest.trans ⟨front, hfront⟩)]
      exact lift_bind fun _ _ => rfl

omit [Librustzcash] [LawfulLibrustzcash] in
theorem position_end {raw rest : Bytes} {stop : Nat} (hstop : stop ≤ raw.length)
    (hrest : rest <:+ raw.drop stop) :
    stop + ((raw.drop stop).length - rest.length) = raw.length ↔ rest = [] := by
  have hle := hrest.length_le
  rw [List.length_drop] at hle ⊢
  rw [← List.length_eq_zero_iff]
  omega

private theorem readVtx_suffix {count index : Nat} {height height' : Option Nat}
    {bytes last : Bytes}
    {vtx : List CompactTx} (h : readVtx count index height bytes = .ok (vtx, height', last)) :
    last <:+ bytes := by
  obtain ⟨txs, hsplit, -⟩ := readVtx_splitTxs h
  exact ⟨_, (splitTxs_eq_ok hsplit).2.1.symm⟩

theorem splitBlockIndexed_eq {raw : Bytes} (hraw : raw.length < 2 ^ 63) :
    splitBlockIndexed raw = lift (splitBlock raw) := by
  unfold splitBlockIndexed splitBlock
  rw [headerEndIndexed_eq hraw]
  refine lift_bind fun stop hstop => ?_
  have hle := (headerEnd_bounds hstop).2
  rw [slice_eq (Nat.zero_le _) hle, lift_ok_bind, slice_to_end hle, lift_ok_bind]
  refine lift_bind fun read hread => ?_
  obtain ⟨txCount, rest⟩ := read
  have hrest := readCompactSize_suffix (Except.mapError_eq_ok.mp hread)
  dsimp only
  rw [splitTxsIndexed_eq hraw hle txCount hrest]
  refine lift_bind fun cut hcut => ?_
  obtain ⟨txs, last⟩ := cut
  have hlast : last <:+ raw.drop stop := by
    have : last <:+ rest := ⟨_, (splitTxs_eq_ok hcut).2.1.symm⟩
    exact this.trans hrest
  have hlength : (raw.drop stop).length = raw.length - stop := List.length_drop
  dsimp only
  rw [add_eq (by omega), lift_ok_bind]
  simp only [position_end hle hlast]
  exact lift_bind fun _ _ => rfl

omit [Librustzcash] [LawfulLibrustzcash] in
private theorem time_bytes {raw : Bytes} (h : headerPrefixLen ≤ raw.length) :
    ∃ b0 b1 b2 b3, raw[100]? = some b0 ∧ raw[101]? = some b1 ∧ raw[102]? = some b2 ∧
      raw[103]? = some b3 ∧ (raw.drop 100).take 4 = [b0, b1, b2, b3] := by
  unfold headerPrefixLen at h
  have hdrop : ∀ i, i < 4 → raw[100 + i]? = ((raw.drop 100).take 4)[i]? := by
    intro i hi
    rw [List.getElem?_take_of_lt hi, List.getElem?_drop]
  have hlength : ((raw.drop 100).take 4).length = 4 := by
    rw [List.length_take, List.length_drop]
    omega
  match hfour : (raw.drop 100).take 4, hlength with
  | [b0, b1, b2, b3], _ =>
      rw [hfour] at hdrop
      exact ⟨b0, b1, b2, b3, hdrop 0 (by omega), hdrop 1 (by omega), hdrop 2 (by omega),
        hdrop 3 (by omega), rfl⟩

theorem toCompactBlockIndexed_eq [Sha256] {raw : Bytes} (hraw : raw.length < 2 ^ 63) :
    toCompactBlockIndexed raw = lift (toCompactBlock raw) := by
  unfold toCompactBlockIndexed
  by_cases hlong : headerPrefixLen ≤ raw.length
  · obtain ⟨b0, b1, b2, b3, h0, h1, h2, h3, htime⟩ := time_bytes hlong
    unfold toCompactBlock
    rw [Except.ensure_pos hlong, lift_ok_bind,
      slice_eq (by omega) (by unfold headerPrefixLen at hlong; omega), lift_ok_bind,
      index_eq h0, lift_ok_bind, index_eq h1, lift_ok_bind, index_eq h2, lift_ok_bind,
      index_eq h3, lift_ok_bind, headerEndIndexed_eq hraw]
    refine lift_bind fun stop hstop => ?_
    have hle := (headerEnd_bounds hstop).2
    rw [slice_eq (Nat.zero_le _) hle, lift_ok_bind, slice_to_end hle, lift_ok_bind]
    refine lift_bind fun read hread => ?_
    obtain ⟨txCount, rest⟩ := read
    have hrest := readCompactSize_suffix (Except.mapError_eq_ok.mp hread)
    dsimp only
    rw [readVtxIndexed_eq]
    refine lift_bind fun parsed hparsed => ?_
    obtain ⟨vtx, height, last⟩ := parsed
    have hlast : last <:+ raw.drop stop := (readVtx_suffix hparsed).trans hrest
    have hlength : (raw.drop stop).length = raw.length - stop := List.length_drop
    dsimp only
    rw [add_eq (by omega), lift_ok_bind]
    simp only [position_end hle hlast]
    refine lift_bind fun _ _ => ?_
    cases height with
    | none => rfl
    | some height =>
        simp only [htime]
        rfl
  · -- A block shorter than the fixed part of a header ends both.
    have hplain : toCompactBlock raw = .error .truncated := by
      unfold toCompactBlock headerEnd
      simp only [Except.ensure, hlong, if_false]
      rfl
    rw [hplain]
    simp only [Except.ensure, hlong, if_false]
    rfl

/--
**Splitting is exact and agrees with parsing.**  Whatever the bytes: what `splitBlock`
returns lays out to the block it was given; a block `toCompactBlock` accepts splits
into as many transactions, with the hash and the link of the split header, and each
compact transaction is what the split one parses to, without the inputs of the first;
and neither panics on a byte string a machine can hold.
-/
theorem splitBlock_exact [Sha256] (raw : Bytes) :
    (∀ header txs, splitBlock raw = .ok (header, txs) →
      header ++ writeCompactSize txs.length ++ txs.flatten = raw) ∧
    (∀ block, toCompactBlock raw = .ok block →
      ∃ header txs, splitBlock raw = .ok (header, txs) ∧ txs.length = block.vtx.length ∧
        block.hash = sha256d header ∧ block.prevHash = (header.drop 4).take 32 ∧
        ∀ i tx, txs[i]? = some tx → ∃ compact, compactTxFromRaw i tx = .ok compact ∧
          block.vtx[i]? = some (if i = 0 then { compact with vin := [] } else compact)) ∧
    (raw.length < 2 ^ 63 → splitBlockIndexed raw = lift (splitBlock raw) ∧
      toCompactBlockIndexed raw = lift (toCompactBlock raw)) := by
  refine ⟨?_, ?_, ?_⟩
  · intro header txs h
    exact (splitBlock_raw h).1
  · intro block h
    exact toCompactBlock_splitBlock h
  · intro hraw
    exact ⟨splitBlockIndexed_eq hraw, toCompactBlockIndexed_eq hraw⟩

end

/-- A block with two transactions, of which only the first is a coinbase. -/
def twoTxBlock : Bytes := headerAt 1 ++ [2] ++ coinbaseTx 0x51 ++ coinbaseTx 0x52

/-- Split, and parsed: the header's hash, and the second transaction as it is by itself.
Without its last byte the block ends both parsers, and none of them panics. -/
theorem twoTxBlock_splits :
    splitBlock twoTxBlock = .ok (headerAt 1, [coinbaseTx 0x51, coinbaseTx 0x52]) ∧
    headerAt 1 ++ writeCompactSize 2 ++ [coinbaseTx 0x51, coinbaseTx 0x52].flatten = twoTxBlock ∧
    (∃ block compact, toCompactBlock twoTxBlock = .ok block ∧ block.vtx.length = 2 ∧
      block.hash = sha256d (headerAt 1) ∧ block.prevHash = ((headerAt 1).drop 4).take 32 ∧
      compactTxFromRaw 1 (coinbaseTx 0x52) = .ok compact ∧ block.vtx[1]? = some compact) ∧
    splitBlockIndexed twoTxBlock.dropLast = Checked.lift (splitBlock twoTxBlock.dropLast) ∧
    toCompactBlockIndexed twoTxBlock.dropLast
      = Checked.lift (toCompactBlock twoTxBlock.dropLast) := by
  have hsplit : splitBlock twoTxBlock = .ok (headerAt 1, [coinbaseTx 0x51, coinbaseTx 0x52]) := by
    decide +kernel
  obtain ⟨hlaid, hparsed, -⟩ := splitBlock_exact twoTxBlock
  have hok : (toCompactBlock twoTxBlock).toOption.isSome = true := by decide +kernel
  rcases hblock : toCompactBlock twoTxBlock with error | block
  · rw [hblock] at hok
    cases hok
  obtain ⟨header, txs, hsame, hlength, hhash, hlink, htxs⟩ := hparsed block hblock
  rw [hsplit] at hsame
  obtain ⟨rfl, rfl⟩ := Prod.mk.inj (Except.ok.inj hsame)
  obtain ⟨compact, hcompact, hat⟩ := htxs 1 _ rfl
  have hcut : twoTxBlock.dropLast.length < 2 ^ 63 := by decide +kernel
  exact ⟨hsplit, hlaid _ _ hsplit, ⟨block, compact, rfl, hlength.symm, hhash, hlink, hcompact, hat⟩,
    (splitBlock_exact twoTxBlock.dropLast).2.2 hcut⟩

end Lightwalletd
