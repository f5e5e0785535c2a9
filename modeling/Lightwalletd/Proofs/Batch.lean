/-
The batched JSON-RPC call agrees with the sequential one.

A reply goes where its id says, so what a batch returns at a place is the last reply
that names it, and a batch with one reply for each call cannot tell in which order they
came.  `BatchAnswers` is what a batch that succeeds returns, and it is the only way one
can: everything else is read off it.
-/
import Lightwalletd.Node.Client

namespace Lightwalletd

/-- The last reply with this id. -/
def lastReply (replies : List BatchResponse) (id : Nat) : Option BatchResponse :=
  replies.reverse.find? fun reply => reply.id = some id

/-- A reply that is no error and names one of the `count` calls. -/
def BatchResponse.Names (count : Nat) (reply : BatchResponse) : Prop :=
  reply.error = none ∧ ∃ id < count, reply.id = some id

/-- What a batch of `count` calls returns for `replies`, if it succeeds. -/
structure BatchAnswers (replies : List BatchResponse) (count : Nat)
    (values : List Json) : Prop where
  names : ∀ reply ∈ replies, reply.Names count
  length : values.length = count
  last : ∀ id value, values[id]? = some value →
    ∃ reply, lastReply replies id = some reply ∧ reply.result = some value

/-! ### Filling the places

A reply goes where its id says, over one that came before it.  What a place holds in the
end is the last reply with its id, and the batch succeeds if every place has one.
-/

private theorem lastReply_cons (reply : BatchResponse) (rest : List BatchResponse) (id : Nat) :
    lastReply (reply :: rest) id
      = (lastReply rest id).or (if reply.id = some id then some reply else none) := by
  unfold lastReply
  rw [List.reverse_cons, List.find?_append]
  congr 1
  by_cases h : reply.id = some id <;> simp [h]

namespace NodeClient

theorem fillResults_ok : ∀ {replies : List BatchResponse} {results filled : List (Option Json)},
    fillResults results replies = .ok filled →
      (∀ reply ∈ replies, reply.Names results.length) ∧ filled.length = results.length ∧
      ∀ id < results.length, filled[id]?
        = match lastReply replies id with
          | some reply => some reply.result
          | none => results[id]? := by
  intro replies
  induction replies with
  | nil =>
      intro results filled h
      obtain rfl := Except.ok.inj h
      exact ⟨nofun, rfl, fun _ _ => rfl⟩
  | cons reply rest ih =>
      intro results filled h
      unfold fillResults at h
      rcases herror : reply.error with _ | error
      · rcases hid : reply.id with _ | place
        · simp [herror, hid] at h
        · simp only [herror, hid] at h
          split at h
          next hlt =>
            obtain ⟨hnames, hlength, hat⟩ := ih h
            rw [List.length_set] at hnames hlength hat
            refine ⟨?_, hlength, fun id hin => ?_⟩
            · intro other hother
              rcases List.mem_cons.mp hother with rfl | hother
              · exact ⟨herror, place, hlt, hid⟩
              · exact hnames other hother
            · rw [hat id hin, lastReply_cons, hid]
              rcases lastReply rest id with _ | later
              · by_cases hplace : place = id
                · subst hplace
                  simp [List.getElem?_set_self hlt]
                · simp [hplace, List.getElem?_set_ne hplace]
              · rfl
          next => cases h
      · simp [herror] at h

private theorem fillResults_names : ∀ {replies : List BatchResponse} {results : List (Option Json)},
    (∀ reply ∈ replies, reply.Names results.length) →
      ∃ filled, fillResults results replies = .ok filled := by
  intro replies
  induction replies with
  | nil => exact fun _ => ⟨_, rfl⟩
  | cons reply rest ih =>
      intro results h
      obtain ⟨herror, place, hlt, hid⟩ := h reply List.mem_cons_self
      unfold fillResults
      simp only [herror, hid, if_pos hlt]
      refine ih fun other hother => ?_
      rw [List.length_set]
      exact h other (List.mem_cons_of_mem _ hother)

theorem mapM_id_eq_some {results : List (Option Json)} {values : List Json} :
    results.mapM id = some values ↔ results = values.map some := by
  rw [Option.mapM_eq_some, ← List.forall₂_eq_eq_eq, List.forall₂_map_right_iff]
  rfl

/-- **A batch returns the last reply to each of its calls, or an error.** -/
theorem batchRequest_eq_ok {client : NodeClient} {method : String} {calls : List Json}
    {replies : List BatchResponse} (hcalls : calls ≠ [])
    (hreplies : client.postBatch (batchRequests method calls) = .ok replies) (values : List Json) :
    client.batchRequest method calls = .ok values ↔ BatchAnswers replies calls.length values := by
  have hrun : client.batchRequest method calls = .ok values ↔
      fillResults (List.replicate calls.length none) replies = .ok (values.map some) := by
    unfold batchRequest
    rw [if_neg (by simpa using hcalls), hreplies, Except.ok_bind, Except.bind_eq_ok]
    constructor
    · rintro ⟨filled, hfilled, hvalues⟩
      split at hvalues
      next found hfound =>
        obtain rfl := Except.ok.inj hvalues
        rw [hfilled, mapM_id_eq_some.mp hfound]
      next => cases hvalues
    · intro hfilled
      refine ⟨_, hfilled, ?_⟩
      rw [mapM_id_eq_some.mpr rfl]
  rw [hrun]
  constructor
  · intro h
    obtain ⟨hnames, hlength, hat⟩ := fillResults_ok h
    rw [List.length_replicate] at hnames hlength hat
    rw [List.length_map] at hlength
    refine ⟨hnames, hlength, fun id value hvalue => ?_⟩
    have hlt : id < calls.length := hlength ▸ (List.getElem?_eq_some_iff.mp hvalue).1
    have hplace := hat id hlt
    rw [List.getElem?_map, hvalue, Option.map_some] at hplace
    rcases hlast : lastReply replies id with _ | reply
    · simp [hlast, hlt] at hplace
    · simp only [hlast, Option.some.injEq] at hplace
      exact ⟨reply, rfl, hplace.symm⟩
  · rintro ⟨hnames, hlength, hlast⟩
    obtain ⟨filled, hfilled⟩ := @fillResults_names _ (List.replicate calls.length none)
      (by rwa [List.length_replicate])
    obtain ⟨-, hsize, hat⟩ := fillResults_ok hfilled
    rw [List.length_replicate] at hsize hat
    rw [hfilled, Except.ok.injEq]
    refine List.ext_getElem? fun id => ?_
    by_cases hlt : id < calls.length
    · have hvalue : values[id]? = some values[id] := List.getElem?_eq_getElem (hlength ▸ hlt)
      obtain ⟨reply, hreply, hresult⟩ := hlast id _ hvalue
      rw [hat id hlt, hreply, List.getElem?_map, hvalue]
      exact congrArg some hresult
    · rw [List.getElem?_eq_none (by omega), List.getElem?_eq_none (by rw [List.length_map]; omega)]

end NodeClient

/-! ### The order of the replies

Where no id comes twice, the last reply with an id is the only one, whatever the order.
-/

/-- With an id to itself, a reply is the last one of it. -/
theorem lastReply_eq_some {replies : List BatchResponse} (hnodup : (replies.map (·.id)).Nodup)
    {id : Nat} {reply : BatchResponse} :
    lastReply replies id = some reply ↔ reply ∈ replies ∧ reply.id = some id := by
  unfold lastReply
  constructor
  · intro h
    exact ⟨List.mem_reverse.mp (List.mem_of_find?_eq_some h),
      by simpa using List.find?_some h⟩
  · rintro ⟨hmem, hid⟩
    rcases hfound : replies.reverse.find? fun reply => reply.id = some id with _ | other
    · have hnone := List.find?_eq_none.mp hfound reply (List.mem_reverse.mpr hmem)
      simp [hid] at hnone
    · have hother : other ∈ replies := List.mem_reverse.mp (List.mem_of_find?_eq_some hfound)
      have hsame : other.id = some id := by simpa using List.find?_some hfound
      exact hfound.trans
        (congrArg some (List.inj_on_of_nodup_map hnodup hother hmem (hsame.trans hid.symm)))

theorem BatchAnswers.perm {replies replies' : List BatchResponse} {count : Nat}
    {values : List Json} (hperm : replies.Perm replies') (hnodup : (replies.map (·.id)).Nodup)
    (h : BatchAnswers replies count values) : BatchAnswers replies' count values := by
  have hnodup' : (replies'.map (·.id)).Nodup := (hperm.map _).nodup_iff.mp hnodup
  refine ⟨fun reply hreply => h.names reply (hperm.mem_iff.mpr hreply), h.length,
    fun id value hvalue => ?_⟩
  obtain ⟨reply, hreply, hresult⟩ := h.last id value hvalue
  obtain ⟨hmem, hid⟩ := (lastReply_eq_some hnodup).mp hreply
  exact ⟨reply, (lastReply_eq_some hnodup').mpr ⟨hperm.mem_iff.mp hmem, hid⟩, hresult⟩

theorem batchAnswers_perm_iff {replies replies' : List BatchResponse} {count : Nat}
    {values : List Json} (hperm : replies.Perm replies') (hnodup : (replies.map (·.id)).Nodup) :
    BatchAnswers replies count values ↔ BatchAnswers replies' count values :=
  ⟨fun h => h.perm hperm hnodup,
    fun h => h.perm hperm.symm ((hperm.map _).nodup_iff.mp hnodup)⟩

/-! ### One hash after the other -/

def hashRequest (height : Nat) : RpcRequest where
  jsonrpc := "1.0"
  id := "lwd"
  method := "getblockhash"
  params := NodeClient.hashCall height

/-- One reply for each height, with the node's answer to it. -/
def trueReplies (answer : Nat → RpcResponse) (heights : List Nat) : List BatchResponse :=
  heights.zipIdx.map fun call =>
    { id := some call.2, result := (answer call.1).result, error := (answer call.1).error }

/-- The node answers `response`, and it is this value. -/
def RpcResponse.Has (response : RpcResponse) (value : Json) : Prop :=
  response.error = none ∧ response.result = some value

theorem trueReplies_nodup (answer : Nat → RpcResponse) (heights : List Nat) :
    ((trueReplies answer heights).map (·.id)).Nodup := by
  have hids : (trueReplies answer heights).map (·.id)
      = (List.range heights.length).map some := by
    rw [trueReplies, List.map_map, List.range_eq_range', ← List.zipIdx_map_snd 0 heights,
      List.map_map]
    rfl
  rw [hids]
  exact List.nodup_range.map (Option.some_injective _)

theorem mem_trueReplies {answer : Nat → RpcResponse} {heights : List Nat} {reply : BatchResponse} :
    reply ∈ trueReplies answer heights ↔ ∃ id height, heights[id]? = some height ∧
      reply =
        { id := some id, result := (answer height).result, error := (answer height).error } := by
  unfold trueReplies
  simp only [List.mem_map, Prod.exists, List.mem_zipIdx_iff_getElem?]
  constructor
  · rintro ⟨height, id, hget, rfl⟩
    exact ⟨id, height, hget, rfl⟩
  · rintro ⟨id, height, hget, rfl⟩
    exact ⟨height, id, hget, rfl⟩

theorem batchAnswers_trueReplies {answer : Nat → RpcResponse} {heights : List Nat}
    {values : List Json} : BatchAnswers (trueReplies answer heights) heights.length values ↔
      List.Forall₂ (fun height value => (answer height).Has value) heights values := by
  have hnodup := trueReplies_nodup answer heights
  rw [List.forall₂_iff_get]
  constructor
  · rintro ⟨hnames, hlength, hlast⟩
    refine ⟨hlength.symm, fun id hin hvalue => ?_⟩
    obtain ⟨reply, hreply, hresult⟩ := hlast id _ (List.getElem?_eq_getElem hvalue)
    obtain ⟨hmem, hid⟩ := (lastReply_eq_some hnodup).mp hreply
    have herror := (hnames reply hmem).1
    obtain ⟨place, height, hheight, rfl⟩ := mem_trueReplies.mp hmem
    obtain rfl : place = id := Option.some.inj hid
    obtain rfl : heights.get ⟨place, hin⟩ = height :=
      Option.some.inj ((List.getElem?_eq_getElem hin).symm.trans hheight)
    exact ⟨herror, hresult⟩
  · rintro ⟨hlength, hall⟩
    refine ⟨fun reply hreply => ?_, hlength.symm, fun id value hvalue => ?_⟩
    · obtain ⟨id, height, hheight, rfl⟩ := mem_trueReplies.mp hreply
      obtain ⟨hin, rfl⟩ := List.getElem?_eq_some_iff.mp hheight
      exact ⟨(hall id hin (hlength ▸ hin)).1, id, hin, rfl⟩
    · obtain ⟨hin, rfl⟩ := List.getElem?_eq_some_iff.mp hvalue
      have hheight : id < heights.length := hlength ▸ hin
      refine ⟨_, (lastReply_eq_some hnodup).mpr ⟨mem_trueReplies.mpr
        ⟨id, heights[id], List.getElem?_eq_getElem hheight, rfl⟩, rfl⟩, ?_⟩
      exact (hall id hheight hin).2

section

variable {client : NodeClient} {answer : Nat → RpcResponse}

theorem NodeClient.rawRequest_eq_ok {height : Nat}
    (hpost : client.post (hashRequest height) = .ok (answer height)) (value : Json) :
    client.rawRequest "getblockhash" (hashCall height) = .ok value ↔ (answer height).Has value := by
  show (client.post (hashRequest height) >>= _) = _ ↔ _
  rw [hpost, Except.ok_bind]
  unfold RpcResponse.Has
  rcases (answer height).error with _ | error
  · rcases (answer height).result with _ | found
    · exact ⟨nofun, fun h => absurd h.2 nofun⟩
    · simp
  · exact ⟨nofun, fun h => absurd h.1 nofun⟩

/-- In whatever order the true replies come, the batched lookup finds what the single
ones find. -/
theorem NodeClient.getBlockHashes_agree {heights : List Nat}
    (hpost : ∀ height ∈ heights, client.post (hashRequest height) = .ok (answer height))
    (hbatch : heights ≠ [] → ∃ replies,
      client.postBatch (batchRequests "getblockhash" (heights.map hashCall)) = .ok replies ∧
      replies.Perm (trueReplies answer heights)) :
    (client.getBlockHashes heights).toOption
      = (defaultBlockHashes client.getBlockHash heights).toOption := by
  refine Except.toOption_congr fun hashes => ?_
  have hvalues : ∀ values, client.batchRequest "getblockhash" (heights.map hashCall) = .ok values ↔
      List.Forall₂ (fun height value => (answer height).Has value) heights values := by
    intro values
    rcases heights with _ | ⟨first, rest⟩
    · rw [List.forall₂_nil_left_iff]
      exact ⟨fun h => (Except.ok.inj h).symm, fun h => congrArg Except.ok h.symm⟩
    · obtain ⟨replies, hreplies, hperm⟩ := hbatch (List.cons_ne_nil _ _)
      have hnodup : (replies.map (·.id)).Nodup :=
        (hperm.map _).nodup_iff.mpr (trueReplies_nodup answer _)
      rw [batchRequest_eq_ok (by simp) hreplies, List.length_map,
        batchAnswers_perm_iff hperm hnodup, batchAnswers_trueReplies]
  have hsingle : ∀ height ∈ heights, ∀ hash, client.getBlockHash height = .ok hash ↔
      ∃ value, (answer height).Has value ∧ value.toText = .ok hash := by
    intro height hin hash
    unfold getBlockHash
    simp only [Except.bind_eq_ok, rawRequest_eq_ok (hpost height hin)]
  calc client.getBlockHashes heights = .ok hashes
      ↔ ∃ values, List.Forall₂ (fun height value => (answer height).Has value) heights values ∧
          List.Forall₂ (fun value hash => Json.toText value = .ok hash) values hashes := by
        unfold getBlockHashes
        simp only [Except.bind_eq_ok, hvalues, Except.mapM_eq_ok]
    _ ↔ List.Forall₂ (fun height hash => ∃ value, (answer height).Has value ∧
          value.toText = .ok hash) heights hashes := List.forall₂_trans_iff
    _ ↔ List.Forall₂ (fun height hash => client.getBlockHash height = .ok hash) heights hashes :=
        (List.forall₂_congr_of_mem hsingle).symm
    _ ↔ defaultBlockHashes client.getBlockHash heights = .ok hashes := Except.mapM_eq_ok.symm

/-- An answer to `getblockhash`: an error, or a hash. -/
def RpcResponse.Proper (response : RpcResponse) : Prop :=
  response.error.isSome = true ∨
    response.error = none ∧ ∃ hash, response.result = some (.string hash)

/-- A single lookup of a proper answer fails with its error or returns its hash. -/
theorem NodeClient.getBlockHash_proper {height : Nat}
    (hpost : client.post (hashRequest height) = .ok (answer height))
    (hproper : (answer height).Proper) :
    (∃ error, (answer height).error = some error ∧
      client.getBlockHash height = .error (.rpc error.code error.message)) ∨
    ∃ hash, (answer height).error = none ∧ (answer height).result = some (.string hash) ∧
      client.getBlockHash height = .ok hash := by
  rcases hproper with herror | ⟨herror, hash, hresult⟩
  · obtain ⟨error, herror⟩ := Option.isSome_iff_exists.mp herror
    refine Or.inl ⟨error, herror, ?_⟩
    show ((client.post (hashRequest height) >>= _) >>= _) = _
    rw [hpost, Except.ok_bind, herror]
    rfl
  · refine Or.inr ⟨hash, herror, hresult, ?_⟩
    unfold getBlockHash
    rw [(rawRequest_eq_ok hpost (.string hash)).mpr ⟨herror, hresult⟩]
    rfl

theorem NodeClient.fillResults_inOrder : ∀ {heights : List Nat} (found : List String),
    (∀ height ∈ heights, client.post (hashRequest height) = .ok (answer height) ∧
      (answer height).Proper) →
    fillResults ((found.map fun hash => some (.string hash)) ++ List.replicate heights.length none)
      ((heights.zipIdx found.length).map fun call =>
        { id := some call.2, result := (answer call.1).result, error := (answer call.1).error })
      = (heights.mapM client.getBlockHash).map fun more =>
          (found ++ more).map fun hash => some (.string hash) := by
  intro heights
  induction heights with
  | nil =>
      intro found _
      simp [fillResults, pure, Except.pure, Except.map]
  | cons height rest ih =>
      intro found hall
      obtain ⟨hpost, hproper⟩ := hall height List.mem_cons_self
      rw [List.zipIdx_cons, List.map_cons, List.mapM_cons]
      unfold fillResults
      rcases getBlockHash_proper hpost hproper with
        ⟨error, herror, hhash⟩ | ⟨hash, herror, hresult, hhash⟩
      · rw [hhash, herror]
        rfl
      · have hplace : ((found.map fun hash => some (Json.string hash))
            ++ List.replicate (height :: rest).length none).set found.length (some (.string hash))
            = ((found ++ [hash]).map fun hash => some (.string hash))
              ++ List.replicate rest.length none := by
          rw [List.set_append_right _ _ (by rw [List.length_map]), List.length_map, Nat.sub_self,
            List.length_cons, List.replicate_succ, List.set_cons_zero, List.map_append,
            List.append_assoc]
          rfl
        have hlt : found.length < ((found.map fun hash => some (Json.string hash))
            ++ List.replicate (height :: rest).length none).length := by
          simp
        have hrest := ih (found ++ [hash]) fun other hother =>
          hall other (List.mem_cons_of_mem _ hother)
        rw [List.length_append, List.length_singleton] at hrest
        simp only [herror, hresult, if_pos hlt, hplace]
        rw [hhash, Except.ok_bind, hrest]
        rcases rest.mapM client.getBlockHash with error | more
        · rfl
        · simp [Except.map, bind, Except.bind, pure, Except.pure]

/-- When the replies come in the order of the calls, the batched lookup is the default
loop, also in the error it ends with. -/
theorem NodeClient.getBlockHashes_inOrder {heights : List Nat}
    (hall : ∀ height ∈ heights, client.post (hashRequest height) = .ok (answer height) ∧
      (answer height).Proper)
    (hbatch : heights ≠ [] →
      client.postBatch (batchRequests "getblockhash" (heights.map hashCall))
        = .ok (trueReplies answer heights)) :
    client.getBlockHashes heights = defaultBlockHashes client.getBlockHash heights := by
  rcases heights with _ | ⟨first, rest⟩
  · rfl
  have hfill := @fillResults_inOrder client answer _ [] hall
  unfold getBlockHashes batchRequest
  rw [if_neg (by simp), hbatch (List.cons_ne_nil _ _), Except.ok_bind, List.length_map]
  unfold defaultBlockHashes
  rw [show fillResults (List.replicate (first :: rest).length none)
      (trueReplies answer (first :: rest)) = _ from hfill]
  rcases (first :: rest).mapM client.getBlockHash with error | hashes
  · rfl
  · have htexts : (hashes.map Json.string).mapM Json.toText = .ok hashes := by
      rw [Except.mapM_eq_ok, List.forall₂_map_left_iff, List.forall₂_same]
      exact fun _ _ => rfl
    have hfilled : (hashes.map fun hash => some (Json.string hash)).mapM id
        = some (hashes.map .string) := by
      rw [mapM_id_eq_some, List.map_map]
      rfl
    simp only [Except.map, Except.ok_bind, List.nil_append, hfilled]
    exact htexts

end

/--
**The batched call agrees with the sequential one.**  A batch succeeds exactly if each
reply is no error and names one of the calls and every call is answered, and returns the
last reply to each.  If the ids differ, the order of the replies changes nothing.  And if
the replies are the node's answers to the heights, in whatever order, the batched lookup
finds what the default loop finds; in the order of the calls it is the default loop, down
to the error, as long as an answer is an error or a hash.
-/
theorem batchRequest_agrees (client : NodeClient) :
    (∀ method calls replies, calls ≠ [] →
      client.postBatch (NodeClient.batchRequests method calls) = .ok replies →
      ∀ values, client.batchRequest method calls = .ok values ↔
        BatchAnswers replies calls.length values) ∧
    (∀ (other : NodeClient) method calls replies replies', calls ≠ [] →
      client.postBatch (NodeClient.batchRequests method calls) = .ok replies →
      other.postBatch (NodeClient.batchRequests method calls) = .ok replies' →
      replies.Perm replies' → (replies.map (·.id)).Nodup →
      (client.batchRequest method calls).toOption = (other.batchRequest method calls).toOption) ∧
    ∀ (answer : Nat → RpcResponse) (heights : List Nat),
      (∀ height ∈ heights, client.post (hashRequest height) = .ok (answer height)) →
      (∀ replies, (heights ≠ [] → client.postBatch (NodeClient.batchRequests "getblockhash"
          (heights.map NodeClient.hashCall)) = .ok replies) →
        replies.Perm (trueReplies answer heights) →
        (client.getBlockHashes heights).toOption
          = (defaultBlockHashes client.getBlockHash heights).toOption) ∧
      ((heights ≠ [] → client.postBatch (NodeClient.batchRequests "getblockhash"
          (heights.map NodeClient.hashCall)) = .ok (trueReplies answer heights)) →
        (∀ height ∈ heights, (answer height).Proper) →
        client.getBlockHashes heights = defaultBlockHashes client.getBlockHash heights) := by
  refine ⟨fun method calls replies hcalls hreplies values =>
    NodeClient.batchRequest_eq_ok hcalls hreplies values,
    fun other method calls replies replies' hcalls hreplies hreplies' hperm hnodup => ?_,
    fun answer heights hpost => ⟨fun replies hbatch hperm => ?_, fun hbatch hproper => ?_⟩⟩
  · refine Except.toOption_congr fun values => ?_
    rw [NodeClient.batchRequest_eq_ok hcalls hreplies,
      NodeClient.batchRequest_eq_ok hcalls hreplies', batchAnswers_perm_iff hperm hnodup]
  · exact NodeClient.getBlockHashes_agree hpost fun hne => ⟨replies, hbatch hne, hperm⟩
  · exact NodeClient.getBlockHashes_inOrder
      (fun height hin => ⟨hpost height hin, hproper height hin⟩) hbatch

end Lightwalletd
