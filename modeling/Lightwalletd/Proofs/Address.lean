/-
Reading unspent outputs in pages.

The start height selects a block, and the server's cap counts outputs.  A request with a
bound within the cap gets the first outputs that match, since the loop stops at the bound
before it can be refused, and so each request of a client that pages gets a page in the
sense of `Paging`.  That paging goes through is then the relation between the two
constants: a block's outputs do not fill a page.
-/
import Lightwalletd.Lib.Paging
import Lightwalletd.Service.Taddress

namespace Lightwalletd

/-- The source asserts this of the two constants when it is compiled. -/
theorem maxIndexedOutputsPerBlock_lt : maxIndexedOutputsPerBlock < maxAddressUtxos := by decide

/-- The hex fields can be decoded. -/
structure AddressUtxo.WellFormed (utxo : AddressUtxo) : Prop where
  txid : ∃ bytes, hexDecode utxo.txid = .ok bytes
  script : ∃ bytes, hexDecode utxo.script = .ok bytes

theorem utxoReply_eq_ok {utxo : AddressUtxo} {reply : GetAddressUtxosReply} :
    utxoReply utxo = .ok reply ↔ ∃ txid script, displayHexToWire utxo.txid = .ok txid ∧
      hexDecode utxo.script = .ok script ∧ reply
        = ⟨utxo.address, txid, asI32 utxo.outputIndex, script, asI64 utxo.satoshis,
          utxo.height⟩ := by
  unfold utxoReply decodeHex
  simp only [Except.bind_eq_ok, Except.mapError_eq_ok, Except.pure_eq_ok, eq_comm (b := reply)]
  constructor
  · rintro ⟨txid, htxid, script, hscript, hreply⟩
    exact ⟨txid, script, htxid, hscript, hreply⟩
  · rintro ⟨txid, script, htxid, hscript, hreply⟩
    exact ⟨txid, htxid, script, hscript, hreply⟩

theorem AddressUtxo.WellFormed.reply {utxo : AddressUtxo} (h : utxo.WellFormed) :
    ∃ reply, utxoReply utxo = .ok reply := by
  obtain ⟨txid, htxid⟩ := h.txid
  obtain ⟨script, hscript⟩ := h.script
  exact ⟨_, utxoReply_eq_ok.mpr
    ⟨_, script, displayHexToWire_eq_ok.mpr ⟨txid, htxid, rfl⟩, hscript, rfl⟩⟩

def Replies (utxos : List AddressUtxo) (replies : List GetAddressUtxosReply) : Prop :=
  List.Forall₂ (fun utxo reply => utxoReply utxo = .ok reply) utxos replies

theorem utxoReply_height {utxo : AddressUtxo} {reply : GetAddressUtxosReply}
    (h : utxoReply utxo = .ok reply) : reply.height = utxo.height := by
  obtain ⟨_, _, -, -, rfl⟩ := utxoReply_eq_ok.mp h
  rfl

theorem Replies.heights {utxos : List AddressUtxo} {replies : List GetAddressUtxosReply}
    (h : Replies utxos replies) :
    replies.map (·.height) = utxos.map (·.height) := by
  induction h with
  | nil => rfl
  | cons hreply _ ih => rw [List.map_cons, List.map_cons, utxoReply_height hreply, ih]

theorem Replies.sorted {utxos : List AddressUtxo} {replies : List GetAddressUtxosReply}
    (h : Replies utxos replies) (hsorted : utxos.Pairwise fun a b => a.height ≤ b.height) :
    replies.Pairwise fun a b => a.height ≤ b.height := by
  have hheights : (replies.map (·.height)).Pairwise (· ≤ ·) := by
    rw [h.heights]
    exact List.pairwise_map.mpr hsorted
  exact List.pairwise_map.mp hheights

theorem Replies.countP_height {utxos : List AddressUtxo} {replies : List GetAddressUtxosReply}
    (h : Replies utxos replies) (height : Nat) :
    replies.countP (fun reply => reply.height = height)
      = utxos.countP fun utxo => utxo.height = height := by
  have hmap := congrArg (List.countP fun other => other = height) h.heights
  rw [List.countP_map, List.countP_map] at hmap
  exact hmap

/-- With a bound within the cap, the loop adds what matches up to that bound. -/
theorem collectReplies_eq {arg : GetAddressUtxosArg} (hmin : 1 ≤ arg.maxEntries)
    (hmax : arg.maxEntries ≤ maxAddressUtxos) {utxos : List AddressUtxo}
    {replies : List GetAddressUtxosReply} (h : Replies utxos replies) :
    ∀ {found : List GetAddressUtxosReply}, found.length ≤ arg.maxEntries →
      collectReplies arg found utxos = .ok (found ++
        (Paging.matching (·.height) replies arg.startHeight).take
          (arg.maxEntries - found.length)) := by
  have hword : maxAddressUtxos < 2 ^ 32 := by decide
  induction h with
  | nil => exact fun _ => by simp [collectReplies, Paging.matching]
  | @cons utxo reply utxos replies hreply _ ih =>
      intro found hfound
      have hmod : found.length % 2 ^ 32 = found.length := Nat.mod_eq_of_lt (by omega)
      have hheight := utxoReply_height hreply
      rw [collectReplies, hmod]
      by_cases hbelow : utxo.height < arg.startHeight
      · rw [if_pos hbelow, ih hfound, Paging.matching, Paging.matching,
          List.filter_cons_of_neg (by simpa [hheight] using hbelow)]
      have hmatch : Paging.matching (·.height) (reply :: replies) arg.startHeight
          = reply :: Paging.matching (·.height) replies arg.startHeight :=
        List.filter_cons_of_pos (by simpa [hheight] using hbelow)
      rw [if_neg hbelow, hmatch]
      by_cases hfull : arg.maxEntries ≤ found.length
      · rw [if_pos ⟨hmin, hfull⟩, Nat.sub_eq_zero_of_le hfull, List.take_zero, List.append_nil]
      · obtain ⟨left, hleft⟩ :=
          Nat.exists_eq_succ_of_ne_zero (Nat.sub_ne_zero_of_lt (Nat.not_le.mp hfull))
        have hnext : (found ++ [reply]).length = found.length + 1 := List.length_append
        rw [if_neg fun hstop => hfull hstop.2, if_neg (by omega), hreply, Except.ok_bind,
          ih (by omega), hleft, hnext, List.take_succ_cons, List.append_assoc,
          List.singleton_append, show arg.maxEntries - (found.length + 1) = left by omega]

theorem collectUtxos_eq {node : List String → Except NodeError (List AddressUtxo)}
    {arg : GetAddressUtxosArg} {utxos : List AddressUtxo} {replies : List GetAddressUtxosReply}
    (hvalid : checkUtxoAddresses arg.addresses = .ok ()) (hanswer : node arg.addresses = .ok utxos)
    (hmin : 1 ≤ arg.maxEntries) (hmax : arg.maxEntries ≤ maxAddressUtxos)
    (h : Replies utxos replies) :
    collectUtxos node arg
      = .ok (Paging.page (·.height) arg.maxEntries replies arg.startHeight) := by
  unfold collectUtxos
  rw [hvalid, Except.ok_bind, Except.mapError_eq_ok.mpr hanswer, Except.ok_bind,
    collectReplies_eq hmin hmax h (Nat.zero_le _), List.nil_append, List.length_nil, Nat.sub_zero]
  rfl

/-- A bounded request gets the first outputs that match.  If they are ordered by height,
and no height has more of them than a block can hold, then going on from the last height
reads every output, whatever height it starts at. -/
theorem collectUtxos_pages {node : List String → Except NodeError (List AddressUtxo)}
    {addresses : List String} {utxos : List AddressUtxo}
    (hvalid : checkUtxoAddresses addresses = .ok ()) (hanswer : node addresses = .ok utxos)
    (hformed : ∀ utxo ∈ utxos, utxo.WellFormed) :
    ∃ replies, Replies utxos replies ∧
      (∀ startHeight maxEntries, 1 ≤ maxEntries → maxEntries ≤ maxAddressUtxos →
        collectUtxos node ⟨addresses, startHeight, maxEntries⟩
          = .ok ((replies.filter fun reply => startHeight ≤ reply.height).take maxEntries)) ∧
      ((utxos.Pairwise fun a b => a.height ≤ b.height) →
        (∀ height, utxos.countP (fun utxo => utxo.height = height) ≤ maxIndexedOutputsPerBlock) →
        ∀ startHeight fuel,
          (replies.filter fun reply => startHeight ≤ reply.height).length < fuel →
          ∃ pages, Paging.read (·.height) maxAddressUtxos
              (fun height => collectUtxos node ⟨addresses, height, maxAddressUtxos⟩)
                fuel startHeight
                = some (.ok pages) ∧
            (pages.map Prod.fst).head? = some startHeight ∧
            (pages.map Prod.fst).IsChain (· < ·) ∧
            Paging.joined (·.height) pages
              = (replies.filter fun reply => startHeight ≤ reply.height) ∧
            ∀ reply, (∃ asked ∈ pages, reply ∈ asked.2) ↔
              reply ∈ replies ∧ startHeight ≤ reply.height) := by
  obtain ⟨replies, -, hreplies⟩ := Except.mapM_forall₂ (f := utxoReply)
    (P := fun utxo reply => utxoReply utxo = .ok reply) fun utxo hin => by
      obtain ⟨reply, hreply⟩ := (hformed utxo hin).reply
      exact ⟨reply, hreply, hreply⟩
  refine ⟨replies, hreplies, fun startHeight maxEntries hmin hmax =>
    collectUtxos_eq hvalid hanswer hmin hmax hreplies,
      fun hsorted hblock startHeight fuel hfuel => ?_⟩
  have hcap : 1 ≤ maxAddressUtxos := by decide
  have hshared : ∀ height,
      replies.countP (fun reply => reply.height = height) < maxAddressUtxos := by
    intro height
    rw [Replies.countP_height hreplies]
    exact (hblock height).trans_lt maxIndexedOutputsPerBlock_lt
  obtain ⟨pages, hread, hhead, hchain, hjoined, hasked⟩ :=
    Paging.read_matching (Replies.sorted hreplies hsorted) hshared
      (fun height => @collectUtxos_eq node ⟨addresses, height, maxAddressUtxos⟩ _ _ hvalid hanswer
        hcap (Nat.le_refl _) hreplies) hfuel
  refine ⟨pages, hread, hhead, hchain, hjoined, fun reply => ⟨?_, fun hreply => ?_⟩⟩
  · rintro ⟨asked, hin, hreply⟩
    have hpage := Paging.fetch_of_mem_read hread asked hin
    rw [collectUtxos_eq hvalid hanswer hcap (Nat.le_refl _) hreplies] at hpage
    rw [← Except.ok.inj hpage] at hreply
    obtain ⟨hmem, hle⟩ := Paging.mem_matching.mp (List.mem_of_mem_take hreply)
    exact ⟨hmem, (hasked asked hin).trans hle⟩
  · have hall := Paging.mem_matching.mpr hreply
    rw [← hjoined] at hall
    exact Paging.mem_of_mem_joined hall

/-- A text of the transparent-address shape. -/
def taddr : String := "t1aaaaaaaaaaaaaaaaaaaaaaaaaaaaaaaaa"

def utxoAt (height : Nat) : AddressUtxo := ⟨taddr, "00112233", 2, "abcd", 7, height⟩

/-- Two blocks of outputs, more than the server's cap. -/
def fullBlocks : List AddressUtxo :=
  List.replicate 60000 (utxoAt 100) ++ List.replicate 60000 (utxoAt 101)

/-- They are read in several pages; a request for two gets the first two of its block. -/
theorem fullBlocks_pages : ∃ replies, Replies fullBlocks replies ∧ replies.length = 120000 ∧
    collectUtxos (fun _ => .ok fullBlocks) ⟨[taddr], 101, 2⟩
      = .ok ((replies.filter fun reply => 101 ≤ reply.height).take 2) ∧
    ∃ pages, Paging.read (·.height) maxAddressUtxos
        (fun height => collectUtxos (fun _ => .ok fullBlocks) ⟨[taddr], height, maxAddressUtxos⟩)
          120001 0 = some (.ok pages) ∧
      1 < pages.length ∧ (pages.map Prod.fst).IsChain (· < ·) ∧
      Paging.joined (·.height) pages = replies := by
  have hall : ∀ utxo ∈ fullBlocks, utxo = utxoAt 100 ∨ utxo = utxoAt 101 := by
    intro utxo hin
    exact (List.mem_append.mp hin).imp List.eq_of_mem_replicate List.eq_of_mem_replicate
  have hlength : fullBlocks.length = 120000 := by
    rw [fullBlocks, List.length_append, List.length_replicate, List.length_replicate]
  have hsorted : fullBlocks.Pairwise fun a b => a.height ≤ b.height := by
    refine List.pairwise_append.mpr ⟨?_, ?_, fun a ha b hb => ?_⟩
    · exact List.pairwise_replicate.mpr (Or.inr (Nat.le_refl _))
    · exact List.pairwise_replicate.mpr (Or.inr (Nat.le_refl _))
    · rw [List.eq_of_mem_replicate ha, List.eq_of_mem_replicate hb]
      exact Nat.le_succ 100
  have hblock : ∀ height,
      fullBlocks.countP (fun utxo => utxo.height = height) ≤ maxIndexedOutputsPerBlock := by
    intro height
    have hcap : maxIndexedOutputsPerBlock = 62500 := rfl
    rw [fullBlocks, List.countP_append, List.countP_replicate, List.countP_replicate, hcap]
    rcases Nat.lt_or_ge 100 height with hhigh | hlow
    · have hfirst : decide ((utxoAt 100).height = height) = false :=
        decide_eq_false (Nat.ne_of_lt hhigh)
      rw [hfirst, if_neg Bool.false_ne_true]
      split <;> omega
    · have hsecond : decide ((utxoAt 101).height = height) = false :=
        decide_eq_false (Nat.ne_of_gt (Nat.lt_succ_of_le hlow))
      rw [hsecond, if_neg Bool.false_ne_true]
      split <;> omega
  obtain ⟨replies, hreplies, hbounded, hpaged⟩ :=
    @collectUtxos_pages (fun _ => .ok fullBlocks) [taddr] fullBlocks (by decide +kernel) rfl
      (fun utxo hin => by rcases hall utxo hin with rfl | rfl <;> exact ⟨⟨_, rfl⟩, ⟨_, rfl⟩⟩)
  have hreplied : replies.length = 120000 := by rw [← hreplies.length_eq, hlength]
  have hmatching : (replies.filter fun reply => 0 ≤ reply.height) = replies := by simp
  obtain ⟨pages, hread, -, hchain, hjoined, -⟩ := hpaged hsorted hblock 0 120001
    (by rw [hmatching, hreplied]; exact Nat.lt_succ_self _)
  rw [hmatching] at hjoined
  refine ⟨replies, hreplies, hreplied, hbounded 101 2 (by decide) (by decide), pages, hread, ?_,
    hchain, hjoined⟩
  -- A single page would be everything, and no request gets that much.
  rcases pages with _ | ⟨⟨start, page⟩, _ | ⟨next, rest⟩⟩
  · rw [← hjoined] at hreplied
    cases hreplied
  · have hpage := Paging.fetch_of_mem_read hread _ (List.mem_singleton_self _)
    rw [hbounded start maxAddressUtxos (by decide) (Nat.le_refl _)] at hpage
    obtain rfl : page = replies := hjoined
    have hcap := List.length_take_le maxAddressUtxos (page.filter fun reply => start ≤ reply.height)
    rw [Except.ok.inj hpage, hreplied] at hcap
    exact absurd hcap (by decide)
  · rw [List.length_cons, List.length_cons]
    omega

/-! ### Balances

The method that takes a stream checks each address as it arrives, the other one counts
them first.  They accept the same addresses, and ask the node the same.
-/

/-- The loop gets to the end if no item is an error, every address is good, and they all
fit. -/
theorem collectAddresses_eq_ok {incoming : List (Except Status String)} {before all : List String}
    (hbefore : before.length ≤ maxStreamedAddresses) :
    (collectAddresses before incoming).1 = .ok all ↔ ∃ addresses, incoming = addresses.map .ok ∧
      (∀ address ∈ addresses, checkTaddress address = .ok ()) ∧ all = before ++ addresses ∧
      all.length ≤ maxStreamedAddresses := by
  induction incoming generalizing before with
  | nil =>
      rw [collectAddresses]
      constructor
      · intro h
        obtain rfl := Except.ok.inj h
        exact ⟨[], rfl, by simp, (List.append_nil _).symm, hbefore⟩
      · rintro ⟨addresses, hnil, -, rfl, -⟩
        rw [List.map_eq_nil_iff.mp hnil.symm, List.append_nil]
  | cons item rest ih =>
      rcases item with status | address
      · rw [collectAddresses]
        constructor
        · intro h
          cases h
        · rintro ⟨addresses, hcons, -⟩
          cases addresses <;> cases hcons
      rw [collectAddresses]
      rcases hcheck : checkTaddress address with status | ⟨⟩
      · constructor
        · intro h
          cases h
        · rintro ⟨_ | ⟨first, addresses⟩, hcons, hgood, -⟩
          · cases hcons
          · obtain ⟨hfirst, -⟩ := List.cons.inj hcons
            obtain rfl := Except.ok.inj hfirst
            rw [hgood _ List.mem_cons_self] at hcheck
            cases hcheck
      dsimp only
      unfold pushBounded
      by_cases hfull : before.length ≥ maxStreamedAddresses
      · rw [if_pos hfull]
        constructor
        · intro h
          cases h
        · rintro ⟨_ | ⟨first, addresses⟩, hcons, -, rfl, hfits⟩
          · cases hcons
          · rw [List.length_append, List.length_cons] at hfits
            omega
      · rw [if_neg hfull]
        dsimp only
        rw [ih (by rw [List.length_append, List.length_singleton]; omega)]
        constructor
        · rintro ⟨addresses, rfl, hgood, rfl, hfits⟩
          exact ⟨address :: addresses, rfl, List.forall_mem_cons.mpr ⟨hcheck, hgood⟩,
            List.append_assoc .., hfits⟩
        · rintro ⟨_ | ⟨first, addresses⟩, hcons, hgood, rfl, hfits⟩
          · cases hcons
          · obtain ⟨hfirst, hrest⟩ := List.cons.inj hcons
            obtain rfl := Except.ok.inj hfirst
            exact ⟨addresses, hrest, (List.forall_mem_cons.mp hgood).2,
              (List.append_assoc before [address] addresses).symm, hfits⟩

/-- Streamed addresses get the balance that a list of them gets, and nothing else does. -/
theorem getTaddressBalanceStream_eq_ok (addressBalance : List String → Except NodeError Int)
    (incoming : List (Except Status String)) (balance : Int) :
    getTaddressBalanceStream addressBalance incoming = .ok balance ↔
      ∃ addresses, incoming = addresses.map .ok ∧
        getTaddressBalance addressBalance addresses = .ok balance := by
  unfold getTaddressBalanceStream getTaddressBalance collectStreamedAddresses
  have hempty : ([] : List String).length ≤ maxStreamedAddresses := Nat.zero_le _
  simp only [Except.bind_eq_ok, Except.ensure_eq_ok, Except.forM_eq_ok,
    collectAddresses_eq_ok hempty, List.nil_append]
  constructor
  · rintro ⟨_, ⟨addresses, rfl, hgood, rfl, hfits⟩, hbalance⟩
    exact ⟨_, rfl, (), hfits, (), hgood, hbalance⟩
  · rintro ⟨addresses, rfl, _, hfits, _, hgood, hbalance⟩
    exact ⟨addresses, ⟨addresses, rfl, hgood, rfl, hfits⟩, hbalance⟩

end Lightwalletd
