import RpcPeer.Proofs.Dialect.Conveyed
import RpcPeer.Proofs.Dialect.Numbering
import RpcPeer.Proofs.Peer.Calls
import RpcPeer.Proofs.Peer.Effects

/-! One id for a request on both sides, through which it is cancelled and answered. -/
namespace RpcPeer
open Json Steps

namespace Dialect

/-- An id as this dialect draws them. -/
def Draws : Dialect → MessageId → Prop
  | base, _ => True
  | debug, id => ∃ n, id = .number n

end Dialect

/-- The catalog has no type of its own for the parameters of a cancellation. -/
def Catalog.TakesCancellations (catalog : Catalog) : Prop :=
  ∀ s, catalog.paramsShape? Message.cancelMethod = some s → s = .raw ∨ s = CancelParams.shape

namespace CancelParams

/-- The parameters of a cancellation as a tree. -/
def tree (c : CancelParams) : Json := .obj [("id", c.id.toJson)]

theorem toJson_payload (c : CancelParams) : c.payload.toJson = .ok (some c.tree) := by
  obtain ⟨id⟩ := c
  cases id <;> rfl

theorem plain_tree (depth : Nat) (c : CancelParams) : Plain (depth + 1) c.tree :=
  .obj (List.pairwise_singleton _ _) (by simp [c.id.plain_toJson])

theorem decode_shape_tree (c : CancelParams) : shape.decode c.tree = .ok c.toDatum := by
  have hid : Shape.id.decode c.id.toJson = .ok c.id.toDatum := Shape.decodeId_toJson c.id
  exact Shape.decodeRecord_obj (Shape.decodeMembers_cons rfl hid rfl) rfl

theorem decode_json_tree (c : CancelParams) : CancelParams.decode (.json c.tree) = .ok c.id := by
  have htyped := decode_payload c
  unfold CancelParams.decode at htyped ⊢
  have hjson : Payload.decode shape (.json c.tree) = .ok c.toDatum := decode_shape_tree c
  have hpayload : Payload.decode shape c.payload = .ok c.toDatum := by
    simp [payload, Payload.decode]
  rw [hjson]
  rwa [hpayload] at htyped

theorem exists_resolveParams {catalog : Catalog} (c : CancelParams)
    (h : catalog.TakesCancellations) :
    ∃ p, catalog.resolveParams Message.cancelMethod (some c.tree) = .ok p ∧
      CancelParams.decode p = .ok c.id := by
  unfold Catalog.TakesCancellations Catalog.paramsShape? at h
  unfold Catalog.resolveParams
  cases hfind : catalog.find? Message.cancelMethod with
  | none => exact ⟨_, rfl, decode_json_tree c⟩
  | some entry =>
    dsimp only
    rcases h entry.params (by rw [hfind]; rfl) with hraw | hshape
    · rw [hraw]
      exact ⟨_, rfl, decode_json_tree c⟩
    · have hresolve : shape.resolve c.tree = (shape.decode c.tree).map (.typed shape.typeName) :=
        rfl
      rw [hshape, hresolve, decode_shape_tree]
      exact ⟨_, rfl, decode_payload c⟩

end CancelParams

namespace Peer

section
variable {p : Peer} {id : MessageId}

/-- A cancellation reaches the call that is served under the id. -/
theorem calls_receive_cancellation {params : Payload} {call : Call}
    (hp : CancelParams.decode params = .ok id) (hcall : p.calls.find? (·.id == id) = some call) :
    (p.receive (.ok (.notification Message.cancelMethod params))).calls = p.calls.map fun b =>
      if b.key == call.key then { b with cancelled := true } else b := by
  have hown : p.handleOwnNotification? Message.cancelMethod params = some (p.cancelServed id) := by
    rw [handleOwnNotification?_cancel, hp]
  have hreceive : p.receive (.ok (.notification Message.cancelMethod params)) =
      p.cancelServed id := handleNotification_of_own hown
  rw [hreceive, cancelServed, hcall]
  exact congrArg Tables.calls (tables_cancelCall _ call.key)

end
end Peer

namespace Codec

section
variable {c d : Codec} {methods : MethodLookup} {r : Except Issue Message} {id : MessageId}

theorem draws_idAfter (c : Codec) (n : Nat) : c.dialect.Draws (c.idAfter n) := by
  obtain ⟨dialect, catalog, next⟩ := c
  cases dialect with
  | base => trivial
  | debug => exact ⟨_, rfl⟩

/-- A request is known to the other side under the id that it has here. -/
theorem Conveys.eq_of_request {method method' : String} {params params' : Payload} {j : MessageId}
    (hd : d.dialect = c.dialect) (hid : c.dialect.Draws id)
    (h : c.Conveys d methods (.request id method params) (.ok (.request j method' params'))) :
    j = id := by
  obtain ⟨dialect, catalog, next⟩ := c
  obtain ⟨dialect', catalog', next'⟩ := d
  obtain rfl : dialect' = dialect := hd
  have hread : ({ result := .ok (.request j method' params') } : Decoding).owed? =
      some (j, method') := Decoding.owed?_of_request rfl
  cases dialect' with
  | base =>
    have howed := Base.owed?_of_conveys h
    exact congrArg Prod.fst (Option.some.inj (hread.symm.trans howed))
  | debug =>
    obtain ⟨n, rfl⟩ := hid
    have howed := Debug.owed?_of_conveys h
    exact congrArg Prod.fst (Option.some.inj (hread.symm.trans howed))

theorem Conveys.response {name : Option String} {o : Outcome} (hd : d.dialect = c.dialect)
    (hid : c.dialect.Draws id) (h : c.Conveys d methods (.response (some id) name o) r) :
    ∃ name' o', r = .ok (.response (some id) name' o') ∧ o'.isResult = o.isResult := by
  obtain ⟨dialect, catalog, next⟩ := c
  obtain ⟨dialect', catalog', next'⟩ := d
  obtain rfl : dialect' = dialect := hd
  cases dialect' with
  | base => exact ⟨none, Base.response_of_conveys h⟩
  | debug =>
    obtain ⟨n, rfl⟩ := hid
    exact ⟨name, Debug.response_of_conveys h⟩

theorem Conveys.cancellation (hd : d.dialect = c.dialect)
    (hreserved : d.catalog.TakesCancellations)
    (h : c.Conveys d methods (.cancellation id) r) :
    ∃ p, r = .ok (.notification Message.cancelMethod p) ∧ CancelParams.decode p = .ok id := by
  obtain ⟨dialect, catalog, next⟩ := c
  obtain ⟨dialect', catalog', next'⟩ := d
  obtain rfl : dialect' = dialect := hd
  obtain ⟨p, hp, hdecode⟩ := CancelParams.exists_resolveParams ⟨id⟩ hreserved
  have hj := CancelParams.toJson_payload ⟨id⟩
  have hplain : ∀ v, some (CancelParams.tree ⟨id⟩) = some v → Plain (maxDepth - 1) v := by
    rintro v ⟨⟩
    exact CancelParams.plain_tree _ _
  cases dialect' with
  | base => exact ⟨p, Base.notification_of_conveys hj hplain hp h, hdecode⟩
  | debug => exact ⟨p, Debug.notification_of_conveys hj hplain hp h, hdecode⟩

theorem exists_text_of_plain {m : Message} {ms : List (String × Json)}
    (hv : (c.encode m).1 = .ok (ofMembers ms)) (hp : ∀ m ∈ ms, Plain (maxDepth - 1) m.2) :
    ∃ text ns, (c.encodeText m).1 = .ok text ∧ parseMembers text = .ok ns := by
  have htree : Plain maxDepth (obj (arrange ms)) :=
    .obj (inOrder_arrange ms) fun m hm => hp m (mem_of_mem_arrange hm)
  refine ⟨(ofMembers ms).text, arrange ms, ?_, parseMembers_text htree⟩
  exact map_eq_ok.mpr ⟨ofMembers ms, hv, rfl⟩

/-- A cancellation can always be written, and its text can be read. -/
theorem exists_cancellation_text (c : Codec) (id : MessageId) :
    ∃ text ns, (c.encodeText (.cancellation id)).1 = .ok text ∧ parseMembers text = .ok ns := by
  have htree : Plain (maxDepth - 1) (CancelParams.tree ⟨id⟩) := CancelParams.plain_tree _ _
  obtain ⟨dialect, catalog, next⟩ := c
  cases dialect with
  | base =>
    have hv : ((⟨.base, catalog, next⟩ : Codec).encode (.cancellation id)).1 =
        .ok (ofMembers [("jsonrpc", .str Base.version), ("method", .str Message.cancelMethod),
          ("params", CancelParams.tree ⟨id⟩)]) := by cases id <;> rfl
    exact exists_text_of_plain hv (by simp [Plain.str, htree])
  | debug =>
    have hv : ((⟨.debug, catalog, next⟩ : Codec).encode (.cancellation id)).1 =
        .ok (ofMembers [("seq", .int next.toInt), ("type", .str Debug.event),
          ("event", .str Message.cancelMethod), ("body", CancelParams.tree ⟨id⟩)]) := by
      cases id <;> rfl
    exact exists_text_of_plain hv (by simp [Plain.str, Debug.plain_int64, htree])

end

/-- The cancellation that this side writes for `id` names `j` to the other side, and it cancels the
call that is served under `j`. -/
structure CancelsAs (c d : Codec) (id j : MessageId) : Prop where
  named {methods : MethodLookup} {r : Except Issue Message} :
    c.Conveys d methods (.cancellation id) r →
      ∃ p, r = .ok (.notification Message.cancelMethod p) ∧ CancelParams.decode p = .ok j
  reached {methods : MethodLookup} {r : Except Issue Message} {q : Peer} {call : Call} :
    c.Conveys d methods (.cancellation id) r → q.calls.find? (·.id == j) = some call →
      (q.receive r).calls = q.calls.map fun b =>
        if b.key == call.key then { b with cancelled := true } else b

/-- What the other side answers to `j` comes as an answer to `id`, and completes the request that
waits under it. -/
structure AnswersAs (d c : Codec) (j id : MessageId) : Prop where
  named {methods : MethodLookup} {name : Option String} {o : Outcome} {r : Except Issue Message} :
    d.Conveys c methods (.response (some j) name o) r →
      ∃ name' o', r = .ok (.response (some id) name' o') ∧ o'.isResult = o.isResult
  reached {methods : MethodLookup} {name : Option String} {o : Outcome}
    {r : Except Issue Message} {q : Peer} {e : PendingRequest} :
    d.Conveys c methods (.response (some j) name o) r → q.pending.find? (·.id == id) = some e →
      (q.receive r).pending = q.pending.filter (·.id != id) ∧
      ∃ o' : Outcome, o'.isResult = o.isResult ∧ (q.receive r).tickets =
        (q.tickets.modify e.ticket Ticket.complete).modify e.ticket
          ({ · with reply := .arrived o'.reply })

section
variable {c d : Codec} {id : MessageId}

theorem cancelsAs (hd : d.dialect = c.dialect) (hreserved : d.catalog.TakesCancellations) :
    c.CancelsAs d id id where
  named h := h.cancellation hd hreserved
  reached := by
    intro methods r q call h hcall
    obtain ⟨p, rfl, hp⟩ := h.cancellation hd hreserved
    exact Peer.calls_receive_cancellation hp hcall

theorem answersAs (hd : d.dialect = c.dialect) (hid : c.dialect.Draws id) :
    d.AnswersAs c id id where
  named h := h.response hd.symm (hd ▸ hid)
  reached := by
    intro methods name o r q e h he
    obtain ⟨name', o', rfl, ho⟩ := h.response hd.symm (hd ▸ hid)
    have ht : (q.receive (.ok (.response (some id) name' o'))).tables = _ :=
      Peer.tables_handleResponse_of_some he
    exact ⟨congrArg Tables.pending ht, o', ho, congrArg Tables.tickets ht⟩

end

/-- The other side has decoded a request that was written with `id` as one with `j`. -/
def KnownAs (c d : Codec) (id j : MessageId) : Prop :=
  ∃ (next : Int64) (methods : MethodLookup) (method method' : String) (params params' : Payload),
    ({ c with next } : Codec).Conveys d methods (.request id method params)
      (.ok (.request j method' params'))

theorem KnownAs.eq {c d : Codec} {id j : MessageId} (h : c.KnownAs d id j)
    (hd : d.dialect = c.dialect) (hid : c.dialect.Draws id) : j = id := by
  obtain ⟨next, methods, method, method', params, params', hrequest⟩ := h
  exact Conveys.eq_of_request (c := { c with next }) hd hid hrequest

/-- A request with an id drawn here is known to the other side under one id, by which it is answered
and, where the catalog of the other side takes cancellations as such, cancelled. No other drawn id
comes to be that one. -/
theorem drawn_ids_agree (c d : Codec) (hd : d.dialect = c.dialect)
    (n : Nat) (hn : n < 2 ^ 63) (j : MessageId) (hknown : c.KnownAs d (c.idAfter n) j) :
    (∀ next, ∃ text ns, (encodeText { c with next } (.cancellation (c.idAfter n))).1 = .ok text ∧
      parseMembers text = .ok ns) ∧
    (d.catalog.TakesCancellations → ∀ next, CancelsAs { c with next } d (c.idAfter n) j) ∧
    (∀ next, AnswersAs { d with next } c j (c.idAfter n)) ∧
    ∀ m < 2 ^ 63, m ≠ n → ∀ other, c.KnownAs d (c.idAfter m) other → other ≠ j := by
  have hid : c.dialect.Draws (c.idAfter n) := c.draws_idAfter n
  have hj : j = c.idAfter n := hknown.eq hd hid
  rw [hj]
  refine ⟨fun next => exists_cancellation_text { c with next } _,
    fun hreserved next => ?cancelled, fun next => ?answered, ?apart⟩
  case cancelled => exact cancelsAs (c := { c with next }) hd hreserved
  case answered => exact answersAs (d := { d with next }) hd hid
  case apart =>
    intro m hm hne other hother hsame
    have hdrawn : other = c.idAfter m := hother.eq hd (c.draws_idAfter m)
    have hids : c.idAfter m = c.idAfter n := hdrawn.symm.trans hsame
    exact hne (c.idAfter_injective hm hn hids)

theorem drawn_ids_agree_third :
    let c : Codec := ⟨.debug, ⟨[]⟩, 5⟩
    let d : Codec := ⟨.debug, ⟨[⟨"$/cancelRequest", .notification, CancelParams.shape, none⟩]⟩, 40⟩
    let j : MessageId := .number 7
    d.catalog.TakesCancellations ∧ c.KnownAs d (c.idAfter 2) j ∧
    (∀ next, CancelsAs { c with next } d (c.idAfter 2) j) ∧
    (∀ next, AnswersAs { d with next } c j (c.idAfter 2)) ∧
    ∀ m < 2 ^ 63, m ≠ 2 → ∀ other, c.KnownAs d (c.idAfter m) other → other ≠ j := by
  intro c d j
  have hreserved : d.catalog.TakesCancellations := by
    intro s hs
    have hshape : d.catalog.paramsShape? Message.cancelMethod = some CancelParams.shape := by cbv
    exact .inr (Option.some.inj (hs.symm.trans hshape))
  let request : Message := .request (c.idAfter 2) "go" (.json (.bool true))
  let text := "\x7b\"arguments\":true,\"command\":\"go\",\"seq\":7,\"type\":\"request\"\x7d"
  have htext : (c.encodeText request).1 = .ok text := by cbv
  have hms : parseMembers text = .ok [("arguments", .bool true), ("command", .str "go"),
    ("seq", .int 7), ("type", .str "request")] := by cbv
  have hread : (d.decodeText noMethods text).result =
      .ok (.request j "go" (.json (.bool true))) := by
    rw [decodeText_of_parseMembers hms]
    rfl
  have hknown : c.KnownAs d (c.idAfter 2) j := by
    refine ⟨5, noMethods, "go", "go", .json (.bool true), .json (.bool true), ?_⟩
    rw [← hread]
    exact .text htext hms
  obtain ⟨-, hcancelled, hanswered, hapart⟩ := drawn_ids_agree c d rfl 2 (by decide) j hknown
  exact ⟨hreserved, hknown, hcancelled hreserved, hanswered, hapart⟩

/-- An answer whose data nest too deep cannot be read, a cancellation may be taken for something
else, and the counter comes round. -/
theorem drawn_id_lost :
    let c : Codec := ⟨.base, ⟨[]⟩, 1⟩
    let d : Codec := ⟨.base, ⟨[⟨"$/cancelRequest", .notification, .text, none⟩]⟩, 1⟩
    let error : ResponseError := ⟨1, "no", some (Nat.iterate (.arr [·]) 125 (.arr []))⟩
    (∃ text, (d.encodeText (.response (some (c.idAfter 0)) none (.error error))).1 = .ok text ∧
      ∀ m, (c.decodeText noMethods text).result ≠ .ok m) ∧
    (∃ v x, (c.encode (.cancellation (c.idAfter 0))).1 = .ok v ∧
      (d.decodeValue noMethods v).result = .error x) ∧
    idAfter ⟨.debug, ⟨[]⟩, 1⟩ (2 ^ 64) = idAfter ⟨.debug, ⟨[]⟩, 1⟩ 0 := by
  intro c d error
  have hid : c.idAfter 0 = .text "1" := by decide +kernel
  rw [hid]
  refine ⟨?answer, ?cancellation, by decide +kernel⟩
  case answer =>
    let members := [("error", error.toJson), ("id", .str "1"), ("jsonrpc", .str "2.0")]
    refine ⟨(obj members).text, rfl, fun m hm => ?_⟩
    obtain ⟨l, hl⟩ := object_of_decodeText hm
    obtain ⟨ns, hns, -⟩ := exists_parseMembers hl
    have htaken : List.Forall₂ _ members ns := members_of_parseMembers hns
    obtain ⟨n, ms, ⟨-, herror⟩, -, -⟩ := List.forall₂_cons_left_iff.mp htaken
    obtain ⟨parts, -, hparts⟩ := herror.of_obj
    obtain ⟨_, ps, -, hps, -⟩ := List.forall₂_cons_left_iff.mp hparts
    obtain ⟨_, _, ⟨-, hdata⟩, -, -⟩ := List.forall₂_cons_left_iff.mp hps
    exact not_takenFor_nested hdata
  case cancellation =>
    exact ⟨_, _, rfl, rfl⟩

end Codec

end RpcPeer
