/-
Where applying what is staged shows in the mock chain.

Below everything staged nothing changes: no block is put in there, nothing is mined, and
linking a chain that is linked already writes the links that are there.

A block that stays gets a new hash if the one below it does, since that hash is in its
header, and so a change travels up from the lowest block into which something is mined.
That block has nothing but the byte of its header that mining a transaction counts up,
and the byte wraps: after 256 transactions it is what it was.  `Perturbs` says that this
does not happen, and that is exactly when the change shows.
-/
import Lightwalletd.Proofs.Presented

namespace Lightwalletd

/-! ### The byte that is counted up

Mining adds one to a byte of the header, modulo 256, and leaves the link alone.
-/

/-- A header after `count` transactions have been mined into its block. -/
def bump (count : Nat) (header : Bytes) : Bytes := header.modify 68 (· + UInt8.ofNat count)

@[simp] theorem bump_length (count : Nat) (header : Bytes) :
    (bump count header).length = header.length := List.length_modify ..

private theorem bump_zero (header : Bytes) : bump 0 header = header := by
  have hid : (fun byte : UInt8 => byte + UInt8.ofNat 0) = id := by
    funext byte
    simp
  rw [bump, hid, List.modify_id]

private theorem bump_modify (count : Nat) (header : Bytes) :
    bump count (header.modify 68 (· + 1)) = bump (count + 1) header := by
  rw [bump, List.modify_modify_eq, bump]
  congr 1
  funext byte
  show byte + 1 + UInt8.ofNat count = byte + UInt8.ofNat (count + 1)
  rw [UInt8.ofNat_add, UInt8.add_assoc, UInt8.add_comm 1]
  rfl

/-- The byte is what it was after every 256 of them. -/
theorem bump_eq_iff {count : Nat} {header : Bytes} (h : 68 < header.length) :
    bump count header = header ↔ count % 256 = 0 := by
  have hbyte : (bump count header)[68]? = some (header[68] + UInt8.ofNat count) := by
    rw [bump, List.getElem?_modify]
    simp [h]
  have hvalue : (header[68] + UInt8.ofNat count).toNat
      = (header[68].toNat + count % 256) % 256 := by
    rw [UInt8.toNat_add, UInt8.toNat_ofNat']
  have hlt : header[68].toNat < 256 := UInt8.toNat_lt _
  constructor
  · intro heq
    rw [heq, List.getElem?_eq_getElem h] at hbyte
    rw [← Option.some.inj hbyte] at hvalue
    omega
  · intro hzero
    have hnone : UInt8.ofNat count = 0 := by
      rw [← UInt8.toNat_inj, UInt8.toNat_ofNat']
      exact hzero
    have hid : (fun byte : UInt8 => byte + UInt8.ofNat count) = id := by
      funext byte
      simp [hnone]
    rw [bump, hid, List.modify_id]

private theorem link_bump (count : Nat) (header : Bytes) :
    ((bump count header).drop 4).take 32 = (header.drop 4).take 32 := by
  refine List.ext_getElem? fun i => ?_
  rw [List.getElem?_take, List.getElem?_take]
  by_cases hi : i < 32
  · rw [if_pos hi, if_pos hi, List.getElem?_drop, List.getElem?_drop, bump, List.getElem?_modify]
    simp [show ¬ 68 = 4 + i by omega]
  · rw [if_neg hi, if_neg hi]

private theorem writePrevHash_link (header : Bytes) :
    writePrevHash header ((header.drop 4).take 32) = header := by
  have hrest : header.drop 36 = (header.drop 4).drop 32 := by rw [List.drop_drop]
  rw [writePrevHash, hrest, List.append_assoc, List.take_append_drop, List.take_append_drop]

/-! ### Linking, block by block -/

section

variable [Sha256]

@[simp] theorem setPrevhash_length (prevHash : Option Bytes) (active : List ActiveBlock) :
    (setPrevhash prevHash active).length = active.length := by
  induction active generalizing prevHash with
  | nil => rfl
  | cons block rest ih =>
      unfold setPrevhash
      rw [List.length_cons, ih, List.length_cons]

private theorem setPrevhash_get_zero (active : List ActiveBlock) :
    (setPrevhash none active)[0]? = active[0]? := by
  cases active with
  | nil => rfl
  | cons block rest => rfl

theorem setPrevhash_get_succ {active : List ActiveBlock} (prevHash : Option Bytes) {i : Nat}
    {below : ActiveBlock} (h : (setPrevhash prevHash active)[i]? = some below) :
    (setPrevhash prevHash active)[i + 1]? = (active[i + 1]?).map fun block =>
      { block with header := writePrevHash block.header (sha256d below.header) } := by
  induction active generalizing prevHash i with
  | nil => simp [setPrevhash] at h
  | cons block rest ih =>
      unfold setPrevhash at h ⊢
      cases i with
      | succ i => exact ih _ h
      | zero =>
          simp only [List.getElem?_cons_zero, Option.some.injEq] at h
          rw [h]
          cases rest with
          | nil => rfl
          | cons next later => rfl

theorem setPrevhash_link {active : List ActiveBlock} {i : Nat} {below block : ActiveBlock}
    (hbelow : (setPrevhash none active)[i]? = some below)
    (hblock : (setPrevhash none active)[i + 1]? = some block)
    (hlong : ∀ old, active[i + 1]? = some old → 36 ≤ old.header.length) :
    (block.header.drop 4).take 32 = sha256d below.header := by
  rw [setPrevhash_get_succ none hbelow] at hblock
  obtain ⟨old, hold, rfl⟩ := Option.map_eq_some_iff.mp hblock
  exact link_writePrevHash (hlong old hold) (sha256d_length _)

/-- Linking leaves a block that stands on the chain it was linked to before. -/
theorem setPrevhash_get_of_linked {before active : List ActiveBlock} (hlinked : LinkedBlocks before)
    {i : Nat} (hsame : ∀ j < i, active[j]? = before[j]?)
    (hlink : ∀ block, active[i]? = some block → ∃ old, before[i]? = some old ∧
      (block.header.drop 4).take 32 = (old.header.drop 4).take 32) :
    (setPrevhash none active)[i]? = active[i]? := by
  induction i with
  | zero => exact setPrevhash_get_zero active
  | succ i ih =>
      have hunder := hsame i (by omega)
      rcases hget : active[i]? with _ | below
      · have hlength : active.length ≤ i := List.getElem?_eq_none_iff.mp hget
        have hlinked : (setPrevhash none active).length ≤ i + 1 := by
          rw [setPrevhash_length]
          omega
        rw [List.getElem?_eq_none hlinked, List.getElem?_eq_none (by omega)]
      · rw [hget] at hunder
        have hbelow : (setPrevhash none active)[i]? = some below := by
          refine (ih (fun j hj => hsame j (by omega)) fun block hblock => ?_).trans hget
          rw [hget] at hblock
          rw [← Option.some.inj hblock]
          exact ⟨below, hunder.symm, rfl⟩
        rw [setPrevhash_get_succ none hbelow]
        rcases hblock : active[i + 1]? with _ | block
        · rfl
        · obtain ⟨old, hold, heq⟩ := hlink block hblock
          rw [Option.map_some, ← hlinked i below old hunder.symm hold, ← heq, writePrevHash_link]

end

namespace DarksideState

section

variable [Librustzcash]

/-! ### What merging leaves -/

theorem rawBlockHeight_of_split {raw header coinbase : Bytes} {rest : List Bytes} {height : Nat}
    (hsplit : splitBlock raw = .ok (header, coinbase :: rest))
    (hheight : coinbaseHeightFromRaw coinbase = .ok height) : rawBlockHeight raw = .ok height :=
  Except.bind_eq_ok.mpr ⟨_, Except.mapError_eq_ok.mpr hsplit, Except.mapError_eq_ok.mpr hheight⟩

private theorem addBlocks_frame (s : DarksideState) (raws : List Bytes) :
    (addBlocks s raws).1 = { s with active := (addBlocks s raws).1.active } := by
  induction raws generalizing s with
  | nil => rfl
  | cons raw rest ih =>
      unfold addBlocks
      rcases addBlockActive_cases s raw with ⟨e, heq⟩ | ⟨_, _, _, _, _, -, -, -, -, -, heq⟩
      · rw [heq]
      · rw [heq]
        exact ih _

private theorem addBlocks_get (raws : List Bytes) {s : DarksideState}
    (hok : (addBlocks s raws).2 = .ok ()) {i : Nat}
    (hbelow : ∀ raw ∈ raws, s.startHeight + i < heightOf raw) :
    (addBlocks s raws).1.active[i]? = s.active[i]? := by
  induction raws generalizing s with
  | nil => rfl
  | cons raw rest ih =>
      unfold addBlocks at hok ⊢
      rcases addBlockActive_cases s raw with ⟨e, heq⟩ |
        ⟨header, coinbase, txs, height, sizes, hsplit, hheight, hlow, hhigh, -, heq⟩
      · rw [heq] at hok
        cases hok
      · rw [heq] at hok ⊢
        have hraw := hbelow raw List.mem_cons_self
        rw [heightOf_eq (rawBlockHeight_of_split hsplit hheight)] at hraw
        refine (ih hok fun other hother => hbelow other (List.mem_cons_of_mem _ hother)).trans ?_
        show (s.active.take (height - s.startHeight) ++ _)[i]? = s.active[i]?
        rw [List.getElem?_append_left (by rw [List.length_take]; omega),
          List.getElem?_take_of_lt (by omega)]

/-! ### What mining leaves

Of all that mining does to a block, only that byte is seen from outside through its
hash.
-/

omit [Librustzcash] in
/-- A block after a transaction has been mined at `index`, seen from place `i`. -/
theorem growFrom_get (index : Nat) (counts : TreeSizes) (raw : Bytes) (active : List ActiveBlock)
    (i : Nat) :
    (growFrom index counts (active.modify index (mineInto raw)))[i]? = (active[i]?).map fun block =>
      if i < index then block
      else if i = index then { mineInto raw block with sizes := block.sizes + counts }
      else { block with sizes := block.sizes + counts } := by
  induction active generalizing index i with
  | nil => simp [growFrom]
  | cons block rest ih =>
      cases index with
      | zero =>
          have hgrown : growFrom 0 counts ((block :: rest).modify 0 (mineInto raw))
              = (mineInto raw block :: rest).map fun block =>
                { block with sizes := block.sizes + counts } := rfl
          rw [hgrown, List.getElem?_map]
          cases i with
          | zero => rfl
          | succ i => simp
      | succ index =>
          rw [List.modify_succ_cons, growFrom_succ]
          cases i with
          | zero => simp
          | succ i =>
              rw [List.getElem?_cons_succ, List.getElem?_cons_succ, ih]
              simp only [Nat.add_lt_add_iff_right, Nat.add_right_cancel_iff]

theorem mineTransactions_cons {s : DarksideState} {tx : Nat × Bytes} {rest : List (Nat × Bytes)}
    (hok : (mineTransactions s (tx :: rest)).2 = .ok ()) :
    ∃ counts, s.startHeight ≤ tx.1 ∧
      mineTransactions s (tx :: rest) = mineTransactions { s with
        active := growFrom (tx.1 - s.startHeight) counts
          (s.active.modify (tx.1 - s.startHeight) (mineInto tx.2)) } rest := by
  unfold mineTransactions at hok
  conv in mineTransactions s (tx :: rest) => unfold mineTransactions
  rcases mineTransaction_cases s tx.1 tx.2 with ⟨e, heq⟩ | ⟨counts, hlow, -, -, heq⟩
  · rw [heq] at hok
    cases hok
  · rw [heq]
    exact ⟨counts, hlow, rfl⟩

/-- How many of the transactions are staged for the block at place `i`. -/
def minedAt (start : Nat) (txs : List (Nat × Bytes)) (i : Nat) : Nat :=
  (txs.map (·.1)).count (start + i)

/-- Mining counts up the byte of each block once for each of its transactions. -/
private theorem mineTransactions_header (txs : List (Nat × Bytes)) {s : DarksideState}
    (hok : (mineTransactions s txs).2 = .ok ()) (i : Nat) :
    (mineTransactions s txs).1.active[i]?.map (·.header)
      = (s.active[i]?).map fun block => bump (minedAt s.startHeight txs i) block.header := by
  induction txs generalizing s with
  | nil =>
      show s.active[i]?.map (·.header) = _
      simp [minedAt, bump_zero]
  | cons tx rest ih =>
      obtain ⟨counts, hlow, heq⟩ := mineTransactions_cons hok
      rw [heq] at hok ⊢
      refine (ih hok).trans ?_
      show Option.map _ (growFrom _ counts _)[i]? = _
      rw [growFrom_get, Option.map_map]
      refine Option.map_congr fun block _ => ?_
      have hcount : minedAt s.startHeight (tx :: rest) i
          = minedAt s.startHeight rest i + if i = tx.1 - s.startHeight then 1 else 0 := by
        rw [minedAt, List.map_cons, List.count_cons, minedAt]
        congr 1
        by_cases hi : i = tx.1 - s.startHeight
        · rw [if_pos hi, if_pos (by simp; omega)]
        · rw [if_neg hi, if_neg (by simp; omega)]
      rw [hcount]
      by_cases hi : i = tx.1 - s.startHeight
      · simp only [Function.comp_apply, hi, lt_irrefl, if_false, if_true]
        exact bump_modify _ _
      · by_cases hlt : i < tx.1 - s.startHeight
        · simp only [Function.comp_apply, hi, hlt, if_true, if_false]
          rfl
        · simp only [Function.comp_apply, hi, hlt, if_false]
          rfl

private theorem mineTransactions_get (txs : List (Nat × Bytes)) {s : DarksideState}
    (hok : (mineTransactions s txs).2 = .ok ()) {i : Nat}
    (hbelow : ∀ tx ∈ txs, s.startHeight + i < tx.1) :
    (mineTransactions s txs).1.active[i]? = s.active[i]? := by
  induction txs generalizing s with
  | nil => rfl
  | cons tx rest ih =>
      obtain ⟨counts, -, heq⟩ := mineTransactions_cons hok
      rw [heq] at hok ⊢
      have htx := hbelow tx List.mem_cons_self
      refine (ih hok fun other hother => hbelow other (List.mem_cons_of_mem _ hother)).trans ?_
      show (growFrom _ counts _)[i]? = s.active[i]?
      rw [growFrom_get]
      simp only [show i < tx.1 - s.startHeight by omega, if_true, Option.map_id']

/-- A success has put in every staged block, then mined every staged transaction, and linked
the chain. -/
theorem applyStaged_loops [Sha256] {s : DarksideState} {targetHeight : Int}
    (h : (s.applyStaged targetHeight).2 = .ok ()) :
    ∃ merged mined, addBlocks { s with stagedBlocks := [] } s.stagedBlocks = (merged, .ok ()) ∧
      mineTransactions { merged with stagedTxs := [] } s.stagedTxs = (mined, .ok ()) ∧
      merged.startHeight = s.startHeight ∧
      (s.applyStaged targetHeight).1.active = setPrevhash none mined.active := by
  obtain ⟨merged, mined, -, hmerge, hmine, happly⟩ := applyStaged_run h
  have hframe := addBlocks_frame { s with stagedBlocks := [] } s.stagedBlocks
  unfold applyStagedBlocks at hmerge
  rcases hadd : addBlocks { s with stagedBlocks := [] } s.stagedBlocks with ⟨added, _ | _⟩
  · rw [hadd] at hmerge
    cases hmerge
  rw [hadd] at hmerge hframe
  dsimp only at hmerge hframe
  split at hmerge
  · cases hmerge
  obtain rfl : added = merged := (Prod.mk.inj hmerge).1
  have htxs : added.stagedTxs = s.stagedTxs := by rw [hframe]
  rw [mineStagedTransactions, htxs] at hmine
  exact ⟨added, mined, rfl, hmine, by rw [hframe], by rw [happly]; rfl⟩

private theorem mineTransactions_low (txs : List (Nat × Bytes)) {s : DarksideState}
    (hok : (mineTransactions s txs).2 = .ok ()) : ∀ tx ∈ txs, s.startHeight ≤ tx.1 := by
  induction txs generalizing s with
  | nil => intro tx htx; cases htx
  | cons first rest ih =>
      obtain ⟨counts, hlow, heq⟩ := mineTransactions_cons hok
      rw [heq] at hok
      intro tx htx
      rcases List.mem_cons.mp htx with rfl | hin
      · exact hlow
      · exact ih hok tx hin

/-! ### Where it shows

A changed hash changes the link of the next block and so its hash, up to the tip.  It
takes a collision to stop that.
-/

/-- No staged block reaches down to place `i`: what stands there is neither replaced nor
dropped. -/
def Stays (s : DarksideState) (i : Nat) : Prop :=
  ∀ height ∈ s.stagedHeights, s.startHeight + i < height

theorem Stays.of_le {s : DarksideState} {i j : Nat} (h : s.Stays i) (hj : j ≤ i) : s.Stays j :=
  fun height hheight => lt_of_le_of_lt (by omega) (h height hheight)

variable [Sha256]

/-- A success links a chain whose lower part is the old one with the bytes counted up. -/
theorem applyStaged_grown {s : DarksideState} {targetHeight : Int}
    (h : (s.applyStaged targetHeight).2 = .ok ()) :
    ∃ grown, (s.applyStaged targetHeight).1.active = setPrevhash none grown ∧
      (∀ i, s.Stays i → grown[i]?.map (·.header) = (s.active[i]?).map fun block =>
        bump (minedAt s.startHeight s.stagedTxs i) block.header) ∧
      (∀ i, s.Stays i → (∀ tx ∈ s.stagedTxs, s.startHeight + i < tx.1) →
        grown[i]? = s.active[i]?) ∧
      ∀ tx ∈ s.stagedTxs, s.startHeight ≤ tx.1 := by
  obtain ⟨merged, mined, hmerge, hmine, hstart, hactive⟩ := applyStaged_loops h
  have hmerged : ∀ i, s.Stays i → merged.active[i]? = s.active[i]? := by
    intro i hstays
    have hget := addBlocks_get (s := { s with stagedBlocks := [] }) s.stagedBlocks (i := i)
      (by rw [hmerge]) fun raw hraw => hstays _ (List.mem_map_of_mem hraw)
    rw [hmerge] at hget
    exact hget
  have hok : (mineTransactions { merged with stagedTxs := [] } s.stagedTxs).2 = .ok () := by
    rw [hmine]
  refine ⟨mined.active, hactive, ?_, ?_, ?_⟩
  · intro i hstays
    have hheader := mineTransactions_header s.stagedTxs hok i
    rw [hmine] at hheader
    rw [hheader, ← hmerged i hstays, ← hstart]
  · intro i hstays hbelow
    have hget := mineTransactions_get s.stagedTxs hok (i := i)
      (by rw [← hstart] at hbelow; exact hbelow)
    rw [hmine] at hget
    exact hget.trans (hmerged i hstays)
  · intro tx htx
    rw [← hstart]
    exact mineTransactions_low s.stagedTxs hok tx htx

private theorem applyStaged_below {s : DarksideState} {targetHeight : Int}
    (hlinked : LinkedBlocks s.active) (h : (s.applyStaged targetHeight).2 = .ok ()) {i : Nat}
    (hstays : s.Stays i) (hbelow : ∀ tx ∈ s.stagedTxs, s.startHeight + i < tx.1) :
    (s.applyStaged targetHeight).1.active[i]? = s.active[i]? := by
  obtain ⟨grown, hactive, -, hget, -⟩ := applyStaged_grown h
  have hsame : ∀ j ≤ i, grown[j]? = s.active[j]? := fun j hj =>
    hget j (hstays.of_le hj) fun tx htx => lt_of_le_of_lt (by omega) (hbelow tx htx)
  rw [hactive, setPrevhash_get_of_linked hlinked (fun j hj =>
    hsame j (by omega)) fun block hblock =>
    ⟨block, (hsame i le_rfl).symm.trans hblock, rfl⟩]
  exact hsame i le_rfl

/-- In the lowest block into which something is mined, only the byte changes. -/
theorem applyStaged_lowest {s : DarksideState} {targetHeight : Int}
    (hlinked : LinkedBlocks s.active) (h : (s.applyStaged targetHeight).2 = .ok ()) {i : Nat}
    {before : ActiveBlock} (hbefore : s.active[i]? = some before) (hstays : s.Stays i)
    (hlowest : ∀ tx ∈ s.stagedTxs, s.startHeight + i ≤ tx.1) :
    ∃ after, (s.applyStaged targetHeight).1.active[i]? = some after ∧
      after.header = bump (minedAt s.startHeight s.stagedTxs i) before.header := by
  obtain ⟨grown, hactive, hheader, hget, -⟩ := applyStaged_grown h
  have hmined := hheader i hstays
  rw [hbefore, Option.map_some] at hmined
  obtain ⟨after, hafter, heq⟩ := Option.map_eq_some_iff.mp hmined
  refine ⟨after, ?_, heq⟩
  rw [hactive, setPrevhash_get_of_linked hlinked, hafter]
  · intro j hj
    exact hget j (hstays.of_le hj.le) fun tx htx => lt_of_lt_of_le (by omega) (hlowest tx htx)
  · intro block hblock
    rw [hafter] at hblock
    rw [← Option.some.inj hblock, heq, link_bump]
    exact ⟨before, hbefore, rfl⟩

theorem applyStaged_link {s : DarksideState} {targetHeight : Int}
    (hlong : ∀ block ∈ s.active, headerPrefixLen ≤ block.header.length)
    (h : (s.applyStaged targetHeight).2 = .ok ()) {i : Nat} {below before : ActiveBlock}
    (hbelow : (s.applyStaged targetHeight).1.active[i]? = some below)
    (hbefore : s.active[i + 1]? = some before) (hstays : s.Stays (i + 1)) :
    ∃ after, (s.applyStaged targetHeight).1.active[i + 1]? = some after ∧
      (after.header.drop 4).take 32 = below.hash := by
  obtain ⟨grown, hactive, hheader, -, -⟩ := applyStaged_grown h
  have hmined := hheader (i + 1) hstays
  rw [hbefore, Option.map_some] at hmined
  obtain ⟨block, hblock, heq⟩ := Option.map_eq_some_iff.mp hmined
  rw [hactive] at hbelow ⊢
  have hafter := setPrevhash_get_succ none hbelow
  rw [hblock, Option.map_some] at hafter
  refine ⟨_, hafter, setPrevhash_link hbelow hafter fun old hold => ?_⟩
  rw [hblock] at hold
  rw [← Option.some.inj hold, heq, bump_length]
  exact le_trans (by decide) (hlong before (List.mem_of_getElem? hbefore))

/-- The hashes of the headers concerned do not collide. -/
def NoCollision (s : DarksideState) (targetHeight : Int) : Prop :=
  ∀ before ∈ s.active, ∀ after ∈ (s.applyStaged targetHeight).1.active,
    after.hash = before.hash → after.header = before.header

instance (s : DarksideState) (targetHeight : Int) : Decidable (s.NoCollision targetHeight) :=
  inferInstanceAs (Decidable (∀ before ∈ s.active, ∀ after ∈ (s.applyStaged targetHeight).1.active,
    after.hash = before.hash → after.header = before.header))

/-- Applying shows where it should and nowhere else: a block below everything staged is
what it was, and one that stays at or above a transaction has a new hash. -/
structure VisibleExactly (s : DarksideState) (targetHeight : Int) : Prop where
  below : ∀ i, s.Stays i → (∀ tx ∈ s.stagedTxs, s.startHeight + i < tx.1) →
    (s.applyStaged targetHeight).1.active[i]? = s.active[i]?
  above : ∀ i before, s.active[i]? = some before → s.Stays i →
    (∃ tx ∈ s.stagedTxs, tx.1 ≤ s.startHeight + i) →
    ∃ after, (s.applyStaged targetHeight).1.active[i]? = some after ∧ after.hash ≠ before.hash

/-- Where the lowest staged transactions go into a block that stays, their number is not a
multiple of 256. -/
def Perturbs (s : DarksideState) : Prop :=
  ∀ i, i < s.active.length → s.Stays i → (∀ tx ∈ s.stagedTxs, s.startHeight + i ≤ tx.1) →
    (∃ tx ∈ s.stagedTxs, tx.1 = s.startHeight + i) →
    minedAt s.startHeight s.stagedTxs i % 256 ≠ 0

variable {s : DarksideState} {targetHeight : Int}

private theorem applyStaged_low (h : (s.applyStaged targetHeight).2 = .ok ()) :
    ∀ tx ∈ s.stagedTxs, s.startHeight ≤ tx.1 := by
  obtain ⟨-, -, -, -, hlow⟩ := applyStaged_grown h
  exact hlow

/-- From a block with a new hash on, every block that stays has a new hash. -/
theorem applyStaged_spreads (hlinked : LinkedBlocks s.active)
    (hlong : ∀ block ∈ s.active, headerPrefixLen ≤ block.header.length)
    (h : (s.applyStaged targetHeight).2 = .ok ()) (hsha : s.NoCollision targetHeight) {i j : Nat}
    (hij : i ≤ j) {low : ActiveBlock} (hlow : s.active[i]? = some low)
    (hnew : ∃ after, (s.applyStaged targetHeight).1.active[i]? = some after ∧
      after.hash ≠ low.hash)
    {before : ActiveBlock} (hbefore : s.active[j]? = some before) (hstays : s.Stays j) :
    ∃ after, (s.applyStaged targetHeight).1.active[j]? = some after ∧
      after.hash ≠ before.hash := by
  induction j, hij using Nat.le_induction generalizing before with
  | base =>
      rw [hlow] at hbefore
      rw [← Option.some.inj hbefore]
      exact hnew
  | succ j hij ih =>
      obtain ⟨hlength, -⟩ := List.getElem?_eq_some_iff.mp hbefore
      have hunder : s.active[j]? = some s.active[j] := List.getElem?_eq_getElem (by omega)
      obtain ⟨below, hbelow, hdiffer⟩ := ih hunder (hstays.of_le (by omega))
      obtain ⟨after, hafter, hlink⟩ := applyStaged_link hlong h hbelow hbefore hstays
      refine ⟨after, hafter, fun hhash => hdiffer ?_⟩
      -- With the hash, the link would be the old one as well.
      have hheader := hsha before (List.mem_of_getElem? hbefore) after
        (List.mem_of_getElem? hafter) hhash
      rw [← hlink, hheader, hlinked j _ before hunder hbefore]
      rfl

/-- If the byte moves in the lowest block, the change shows in all that stay above it. -/
theorem visible_of_perturbs (hlinked : LinkedBlocks s.active)
    (hlong : ∀ block ∈ s.active, headerPrefixLen ≤ block.header.length)
    (h : (s.applyStaged targetHeight).2 = .ok ()) (hsha : s.NoCollision targetHeight)
    (hperturbs : s.Perturbs) : s.VisibleExactly targetHeight := by
  refine ⟨fun i => applyStaged_below hlinked h, ?_⟩
  intro j before hbefore hstays hmined
  have hsome : ∃ height, ∃ tx ∈ s.stagedTxs, tx.1 = height := by
    obtain ⟨tx, htx, -⟩ := hmined
    exact ⟨tx.1, tx, htx, rfl⟩
  classical
  obtain ⟨first, hfirst, heq⟩ := Nat.find_spec hsome
  have hleast : ∀ tx ∈ s.stagedTxs, first.1 ≤ tx.1 := fun tx htx => by
    rw [heq]
    exact Nat.find_min' hsome ⟨tx, htx, rfl⟩
  obtain ⟨i, hi⟩ := Nat.exists_eq_add_of_le (applyStaged_low h first hfirst)
  rw [hi] at hleast
  have hij : i ≤ j := by
    obtain ⟨tx, htx, hle⟩ := hmined
    have := hleast tx htx
    omega
  obtain ⟨hlength, -⟩ := List.getElem?_eq_some_iff.mp hbefore
  have hlow : s.active[i]? = some s.active[i] := List.getElem?_eq_getElem (by omega)
  refine applyStaged_spreads hlinked hlong h hsha hij hlow ?_ hbefore hstays
  obtain ⟨after, hafter, hheader⟩ :=
    applyStaged_lowest hlinked h hlow (hstays.of_le hij) hleast
  refine ⟨after, hafter, fun hhash => ?_⟩
  have hsame := hsha _ (List.mem_of_getElem? hlow) after (List.mem_of_getElem? hafter) hhash
  rw [hheader, bump_eq_iff (lt_of_lt_of_le (by decide) (hlong _ (List.mem_of_getElem? hlow)))]
    at hsame
  exact hperturbs i (by omega) (hstays.of_le hij) hleast ⟨first, hfirst, hi⟩ hsame

/-- If it does not, that block keeps its hash. -/
theorem perturbs_of_visible (hlinked : LinkedBlocks s.active)
    (hlong : ∀ block ∈ s.active, headerPrefixLen ≤ block.header.length)
    (h : (s.applyStaged targetHeight).2 = .ok ()) (hvisible : s.VisibleExactly targetHeight) :
    s.Perturbs := by
  intro i hi hstays hlowest hmined hcount
  have hbefore : s.active[i]? = some s.active[i] := List.getElem?_eq_getElem hi
  obtain ⟨after, hafter, hheader⟩ := applyStaged_lowest hlinked h hbefore hstays hlowest
  have hlength : 68 < s.active[i].header.length :=
    lt_of_lt_of_le (by decide) (hlong _ (List.mem_of_getElem? hbefore))
  rw [(bump_eq_iff hlength).mpr hcount] at hheader
  obtain ⟨tx, htx, hheight⟩ := hmined
  obtain ⟨changed, hchanged, hdiffer⟩ :=
    hvisible.above i _ hbefore hstays ⟨tx, htx, hheight.le⟩
  rw [hafter] at hchanged
  rw [← Option.some.inj hchanged] at hdiffer
  refine hdiffer ?_
  rw [ActiveBlock.hash, hheader]
  rfl

/--
**When a reorg shows.**  On a linked chain, an application that succeeds leaves every block
below all that is staged as it was and gives every block that stays at or above a mined
transaction a new hash, exactly if the transactions of the lowest block do not count its
byte all the way around.  That headers have their fixed part holds in every reachable state,
see `staged_kept`.
-/
theorem visibleExactly_iff (hlinked : LinkedBlocks s.active)
    (hlong : ∀ block ∈ s.active, headerPrefixLen ≤ block.header.length)
    (h : (s.applyStaged targetHeight).2 = .ok ()) (hsha : s.NoCollision targetHeight) :
    s.VisibleExactly targetHeight ↔ s.Perturbs :=
  ⟨perturbs_of_visible hlinked hlong h, visible_of_perturbs hlinked hlong h hsha⟩

omit [Librustzcash] [Sha256] in
private theorem minedAt_le (start : Nat) (txs : List (Nat × Bytes)) (i : Nat) :
    minedAt start txs i ≤ txs.length := by
  rw [minedAt, ← List.length_map (f := (·.1))]
  exact List.count_le_length

omit [Sha256] in
theorem perturbs_of_few (h : s.stagedTxs.length < 256) : s.Perturbs := by
  intro i _ _ _ hmined
  obtain ⟨tx, htx, hheight⟩ := hmined
  have hpos : 0 < minedAt s.startHeight s.stagedTxs i := by
    refine List.count_pos_iff.mpr ?_
    rw [← hheight]
    exact List.mem_map_of_mem htx
  have hle := minedAt_le s.startHeight s.stagedTxs i
  omega

end

/-- Two linked blocks, with a transaction staged for the upper one and a block to follow. -/
def reorgChain : List ControlOp :=
  [.reset ⟨1, "76b809bb", "main", (0, 0, 0)⟩, .stageBlock (mockBlock 1), .stageBlock (mockBlock 2),
    .applyStaged 2, .stageTransaction 2 (coinbaseTx 0x57), .stageBlock (mockBlock 3)]

/-- The upper block gets a new hash and the lower does not change. -/
theorem reorgChain_visible :
    (run .new reorgChain).VisibleExactly 3 ∧
    ((run .new reorgChain).applyStaged 3).1.active[0]? = (run .new reorgChain).active[0]? ∧
    ∃ before after, (run .new reorgChain).active[1]? = some before ∧
      ((run .new reorgChain).applyStaged 3).1.active[1]? = some after ∧
      after.hash ≠ before.hash := by
  have hfits : AllFits (run .new (reorgChain.take 3)) :=
    ⟨by decide +kernel, by decide +kernel, by decide +kernel⟩
  have hstaged : Staged (run .new reorgChain) ∧ Intact (run .new reorgChain) := intact_run
    ⟨trivial, trivial, trivial, Or.inr (Or.inr (Or.inr hfits)), trivial, trivial, trivial⟩
  have hvisible : (run .new reorgChain).VisibleExactly 3 :=
    (visibleExactly_iff hstaged.2.linked hstaged.1.headers (by decide +kernel)
      (by decide +kernel)).mpr (perturbs_of_few (by decide +kernel))
  have hstart : (run .new reorgChain).startHeight = 1 := by decide +kernel
  have hheights : (run .new reorgChain).stagedHeights = [3] := by decide +kernel
  have htxs : (run .new reorgChain).stagedTxs = [(2, coinbaseTx 0x57)] := by decide +kernel
  have hstays : ∀ i, i < 2 → (run .new reorgChain).Stays i := by
    intro i hi height hheight
    rw [hheights, List.mem_singleton] at hheight
    omega
  refine ⟨hvisible, hvisible.below 0 (hstays 0 (by decide)) ?_, ?_⟩
  · intro tx htx
    rw [htxs, List.mem_singleton] at htx
    rw [htx, hstart]
    decide
  · obtain ⟨before, hbefore⟩ : ∃ block, (run .new reorgChain).active[1]? = some block :=
      Option.isSome_iff_exists.mp (by decide +kernel)
    obtain ⟨after, hafter, hdiffer⟩ := hvisible.above 1 before hbefore (hstays 1 (by decide))
      ⟨_, by rw [htxs]; exact List.mem_singleton_self _, by rw [hstart]⟩
    exact ⟨before, after, hbefore, hafter, hdiffer⟩

/-- One block, and as many transactions for it as a byte has values. -/
def wrappedChain : List ControlOp :=
  [.reset ⟨1, "76b809bb", "main", (0, 0, 0)⟩, .stageBlock (mockBlock 1), .applyStaged 1] ++
    List.replicate 256 (.stageTransaction 1 (coinbaseTx 0x57))

/-- They are mined, and the block keeps its hash. -/
theorem wrappedChain_hidden :
    LinkedBlocks (run .new wrappedChain).active ∧
    (∀ block ∈ (run .new wrappedChain).active, headerPrefixLen ≤ block.header.length) ∧
    ((run .new wrappedChain).applyStaged 1).2 = .ok () ∧
    (run .new wrappedChain).NoCollision 1 ∧
    ((run .new wrappedChain).applyStaged 1).1.active.map (·.hash)
      = (run .new wrappedChain).active.map (·.hash) ∧
    ¬ (run .new wrappedChain).VisibleExactly 1 := by
  have hok : ((run .new wrappedChain).applyStaged 1).2 = .ok () := by decide +kernel
  have hlength : (run .new wrappedChain).active.length = 1 := by decide +kernel
  have hstart : (run .new wrappedChain).startHeight = 1 := by decide +kernel
  have hblocks : (run .new wrappedChain).stagedHeights = [] := by decide +kernel
  have htxs : (run .new wrappedChain).stagedTxs = List.replicate 256 (1, coinbaseTx 0x57) := by
    decide +kernel
  have hheaders := (staged_kept.run wrappedChain).headers
  have hlinked : LinkedBlocks (run .new wrappedChain).active := by
    intro i below block _ hblock
    obtain ⟨hi, -⟩ := List.getElem?_eq_some_iff.mp hblock
    omega
  refine ⟨hlinked, hheaders, hok, by decide +kernel, by decide +kernel, fun hvisible => ?_⟩
  refine perturbs_of_visible hlinked hheaders hok hvisible 0 (by omega) ?_ ?_ ?_ ?_
  · intro height hheight
    rw [hblocks] at hheight
    cases hheight
  · intro tx htx
    rw [htxs] at htx
    rw [hstart, List.eq_of_mem_replicate htx]
  · rw [htxs, hstart]
    exact ⟨(1, coinbaseTx 0x57), List.mem_replicate.mpr ⟨by decide, rfl⟩, rfl⟩
  · rw [htxs, hstart, minedAt, List.map_replicate, List.count_replicate_self]

end DarksideState

end Lightwalletd
