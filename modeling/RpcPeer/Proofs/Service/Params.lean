import RpcPeer.Proofs.Dialect.Agreement
import RpcPeer.Proofs.Dialect.BaseRoundTrip
import RpcPeer.Proofs.Peer.Calls
import RpcPeer.Proofs.Service.Routing

/-! Parameters on two ways to a handler: through the codec or as a tree. -/
namespace RpcPeer
open Steps

section
variable {s : Shape} {v : Json} {p : Payload} {e : DataError}

theorem Shape.decode_of_resolve (h : s.resolve v = .ok p) : p.decode s = s.decode v := by
  unfold resolve at h
  split at h
  next => rw [← Except.ok.inj h, Payload.decode]
  next =>
    obtain ⟨d, hd, rfl⟩ := map_eq_ok.mp h
    rw [hd, Payload.decode, beq_self_eq_true, if_pos rfl]

theorem Shape.decode_of_resolve_error (h : s.resolve v = .error e) : s.decode v = .error e := by
  unfold resolve at h
  split at h
  next => cases h
  next =>
    cases hd : s.decode v with
    | ok d =>
      rw [hd] at h
      cases h
    | error x =>
      rw [hd] at h
      have hx : x = e := Except.error.inj h
      rw [hx]

/-- Parameters with this tree that nobody has resolved; `null` may be absent. -/
def Payload.Unresolved (v : Json) : Payload → Prop
  | absent => v = .null
  | json w => w = v
  | typed .. => False

theorem Payload.Unresolved.decode (h : p.Unresolved v) (s : Shape) : p.decode s = s.decode v := by
  cases p with
  | absent =>
    have hv : v = .null := h
    rw [hv, Payload.decode]
  | json w =>
    have hw : w = v := h
    rw [hw, Payload.decode]
  | typed name d => exact h.elim

/-- What the catalog makes of a tree is decoded like the tree itself, and what it refuses cannot be
decoded. A tree that is `null` is left to whoever decodes it. -/
theorem Catalog.resolveParams_cases {c : Catalog} {method : String} {entry : MethodEntry}
    (h : c.find? method = some entry) (raw : Option Json) :
    (∃ p, c.resolveParams method (present raw) = .ok p ∧
      p.decode entry.params = entry.params.decode (raw.getD .null)) ∨
    ∃ e, c.resolveParams method (present raw) = .error e ∧
      entry.params.decode (raw.getD .null) = .error e := by
  rcases present_cases raw with ⟨hnone, hraw⟩ | ⟨v, hv, rfl⟩
  · have hnull : raw.getD .null = .null := by
      rcases hraw with rfl | rfl <;> rfl
    rw [hnone, hnull]
    exact .inl ⟨.absent, rfl, rfl⟩
  · have hresolve : c.resolveParams method (some v) = entry.params.resolve v := by
      rw [resolveParams, h]
    rw [hv, hresolve, Option.getD_some]
    cases hr : entry.params.resolve v with
    | ok p => exact .inl ⟨p, rfl, Shape.decode_of_resolve hr⟩
    | error e => exact .inr ⟨e, rfl, Shape.decode_of_resolve_error hr⟩

end

/-- A request, or without an id a notification. -/
def Message.call (id : Option MessageId) (method : String) (params : Payload) : Message :=
  match id with
  | some id => .request id method params
  | none => .notification method params

namespace Envelope

/-- The envelope is one of a call with the parameters `raw`, which may be `null` or missing. -/
def Calls (e : Envelope) (id : Option MessageId) (method : String) (raw : Option Json) :
    Dialect → Prop
  | .base => (∀ v, e.version = some v → v = Base.version) ∧ e.id = id ∧
      e.fields.lookup "params" = raw ∧ e.method = some method
  | .debug => e.method = some method ∧
      match id with
      | some id => e.kind = some Debug.request ∧ e.seq.map .number = some id ∧
          e.fields.lookup "arguments" = raw
      | none => e.kind = some Debug.event ∧ e.fields.lookup "body" = raw

end Envelope

/-- What becomes of a call, by what the catalog makes of its parameters. -/
inductive Resolved (catalog : Catalog) (id : Option MessageId) (method : String)
    (raw : Option Json) : Except Issue Message → Prop
  | message {p : Payload} (params : catalog.resolveParams method (present raw) = .ok p) :
    Resolved catalog id method raw (.ok (.call id method p))
  | issue {err : DataError} {i : Issue}
    (params : catalog.resolveParams method (present raw) = .error err)
    (code : i.code = .invalidParams) (hid : i.id = id) (hmethod : i.method = some method) :
    Resolved catalog id method raw (.error i)

section
variable {catalog : Catalog} {id : Option MessageId} {method : String} {raw : Option Json}
  {e : Envelope}

theorem Base.resolved_call (h : e.Calls id method raw .base) (methods : MethodLookup) :
    Resolved catalog id method raw (resolve catalog methods e none).result := by
  obtain ⟨hversion, rfl, rfl, hmethod⟩ := h
  have hfilter : e.version.filter (· != version) = none := by
    refine Option.filter_eq_none_iff.mpr fun v hv => ?_
    simp [hversion v hv]
  simp only [resolve, hfilter, hmethod, resolveCall, e.takeField_eq]
  cases hparams : catalog.resolveParams method (present (e.fields.lookup "params")) with
  | ok p =>
    have hmessage : Resolved catalog e.id method _ (.ok (.call e.id method p)) := .message hparams
    cases hid : e.id <;> rwa [hid] at hmessage
  | error err => exact .issue hparams rfl rfl rfl

theorem Debug.resolved_call (h : e.Calls id method raw .debug) (methods : MethodLookup) :
    Resolved catalog id method raw (resolve catalog methods e none).result := by
  obtain ⟨hmethod, h⟩ := h
  cases id with
  | some id =>
    obtain ⟨hkind, hseq, rfl⟩ := h
    obtain ⟨n, hn, rfl⟩ := Option.map_eq_some_iff.mp hseq
    have hresolve : (resolve catalog methods e none).result = resolveRequest catalog e := by
      simp [resolve, hkind]
    rw [hresolve]
    simp only [resolveRequest, hn, hmethod, e.takeField_eq]
    cases hparams : catalog.resolveParams method (present (e.fields.lookup "arguments")) with
    | ok p => exact .message hparams
    | error err => exact .issue hparams rfl rfl rfl
  | none =>
    obtain ⟨hkind, rfl⟩ := h
    have hresolve : (resolve catalog methods e none).result = resolveEvent catalog e := by
      simp [resolve, hkind, event, request]
    rw [hresolve]
    simp only [resolveEvent, hmethod, e.takeField_eq]
    cases hparams : catalog.resolveParams method (present (e.fields.lookup "body")) with
    | ok p => exact .message hparams
    | error err => exact .issue hparams rfl rfl rfl

end

namespace Codec

/-- What the codec makes of a call, from its text or from its tree. -/
inductive Takes (c : Codec) (id : Option MessageId) (method : String) (raw : Option Json) :
    Except Issue Message → Prop
  | text {e : Envelope} (methods : MethodLookup) (text : String)
    (scanned : Envelope.scanText c.dialect text = (e, none))
    (call : e.Calls id method raw c.dialect) :
    Takes c id method raw (c.decodeText methods text).result
  | tree {e : Envelope} (methods : MethodLookup) (v : Json)
    (scanned : Envelope.scanValue c.dialect v = (e, none))
    (call : e.Calls id method raw c.dialect) :
    Takes c id method raw (c.decodeValue methods v).result

section
variable {c : Codec} {id : Option MessageId} {method : String} {raw : Option Json} {e : Envelope}
  {x : Except Issue Message}

theorem resolved_call (h : e.Calls id method raw c.dialect) (methods : MethodLookup) :
    Resolved c.catalog id method raw (c.resolve methods (e, none)).result := by
  obtain ⟨dialect, catalog, next⟩ := c
  cases dialect with
  | base => exact Base.resolved_call h methods
  | debug => exact Debug.resolved_call h methods

theorem Takes.resolved (h : c.Takes id method raw x) : Resolved c.catalog id method raw x := by
  cases h with
  | text methods text scanned call =>
    rw [decodeText, scanned]
    exact resolved_call call methods
  | tree methods v scanned call =>
    rw [decodeValue, scanned]
    exact resolved_call call methods

/-- A call comes as a message whose parameters are decoded like their tree, or as an issue because
they cannot be decoded. -/
theorem Takes.cases (h : c.Takes id method raw x) {entry : MethodEntry}
    (hentry : c.catalog.find? method = some entry) :
    (∃ p, x = .ok (.call id method p) ∧
      p.decode entry.params = entry.params.decode (raw.getD .null)) ∨
    ∃ err i, x = .error i ∧ i.code = .invalidParams ∧ i.id = id ∧ i.method = some method ∧
      entry.params.decode (raw.getD .null) = .error err := by
  have hcases := Catalog.resolveParams_cases hentry raw
  cases h.resolved with
  | message params =>
    rcases hcases with ⟨p, hp, hdecode⟩ | ⟨err, herr, -⟩
    · have hsame := Except.ok.inj (params.symm.trans hp)
      exact .inl ⟨_, rfl, hsame ▸ hdecode⟩
    · cases params.symm.trans herr
  | issue params code hid hmethod =>
    rcases hcases with ⟨p, hp, -⟩ | ⟨err, -, hdecode⟩
    · cases params.symm.trans hp
    · exact .inr ⟨err, _, rfl, code, hid, hmethod, hdecode⟩

end
end Codec

namespace Service

section
variable {s : Service} {method : String} {u : Payload} {v : Json}

theorem callRequest_of_decode {r : Route RequestHandler} {p : Payload} {x : Datum}
    (h : s.findRequest method = some r) (hp : p.decode r.handler.params = .ok x) :
    s.callRequest method p =
      (some ⟨.request, r.service, r.method, r.handler.params.payload x⟩, r.handler.serve x) := by
  simp only [callRequest, h, hp]

theorem callRequest_of_decode_error {r : Route RequestHandler} {p : Payload} {e : DataError}
    (h : s.findRequest method = some r) (hp : p.decode r.handler.params = .error e) :
    s.callRequest method p = (none, .done (.fault (.invalidParams e.message))) := by
  simp only [callRequest, h, hp]

theorem callNotification_of_decode {r : Route NotificationHandler} {p : Payload} {x : Datum}
    (h : s.findNotification method = some r) (hp : p.decode r.handler.params = .ok x) :
    s.callNotification method p =
      (some ⟨.notification, r.service, r.method, r.handler.params.payload x⟩,
        r.handler.serve x) := by
  simp only [callNotification, h, hp]

theorem callNotification_of_decode_error {r : Route NotificationHandler} {p : Payload}
    {e : DataError} (h : s.findNotification method = some r)
    (hp : p.decode r.handler.params = .error e) :
    s.callNotification method p = (none, .fault (.invalidParams e.message)) := by
  simp only [callNotification, h, hp]

/-- A registration in a tree of services is found under its full name. -/
theorem Describes.find_of_mem {η : Type} {handlers : Service → List (String × η)}
    {kind : MethodKind} {describe : String × η → MethodEntry} {d : CatalogDraft} {c : Catalog}
    {entry : LogEntry} {r : Route η} (hk : Describes kind handlers describe) (h : Serves d s)
    (hs : s.Built) (hb : d.build = .ok (c, entry)) (hr : r ∈ candidates handlers method s) :
    (s.findFirst fun t => Route.find? method t.group (handlers t)) = some r ∧
      c.find? method = some { describe (r.method, r.handler) with name := method } := by
  have hrouted := hk.routed h hs hb method
  rw [hrouted.only, Option.mem_toList] at hr
  exact ⟨hr, (hrouted.described r hr).2⟩

end
end Service

namespace Peer

/-- The call that the next request becomes. -/
def newCall (p : Peer) (id : MessageId) (method : String) (params : Payload) : Call :=
  ⟨p.nextKey, id, method, params, false, none⟩

def accept (p : Peer) (c : Call) : Peer :=
  { p with calls := p.calls ++ [c], nextKey := p.nextKey + 1 }.wake (.call c.key)

/-- Goes on with a call for which this remains to be done. -/
def goOn (p : Peer) (c : Call) (a : Activity) : Peer :=
  match a.resume false p.opened with
  | .done v => p.settle c v
  | waiting => p.modifyCall c.key ({ · with activity := some waiting })

/-- The request becomes a call, and with it the handler of `r` is called with `x`. -/
def Reaches (p : Peer) (id : MessageId) (method : String) (r : Service.Route RequestHandler)
    (x : Datum) (m : Except Issue Message) : Prop :=
  ∃ params, p.receive m = p.accept (p.newCall id method params) ∧
    ∀ q : Peer, q.service = p.service →
      q.calls.find? (·.key == p.nextKey) = some (p.newCall id method params) →
      q.runCall p.nextKey =
        (q.record (.invoked ⟨.request, r.service, r.method, r.handler.params.payload x⟩)).goOn
          (p.newCall id method params) (r.handler.serve x)

/-- The request gets the answer that its parameters are invalid: at once, or else when it is run as
a call, and its handler is not called. -/
def Refuses (p : Peer) (id : MessageId) (method : String) (m : Except Issue Message) : Prop :=
  (∃ entry text, p.receive m =
    (p.write entry).respond id method (.error (.ofCode .invalidParams text))) ∨
  ∃ params text, p.receive m = p.accept (p.newCall id method params) ∧
    ∀ q : Peer, q.service = p.service → q.policy = p.policy →
      q.calls.find? (·.key == p.nextKey) = some (p.newCall id method params) →
      q.runCall p.nextKey = ((q.removeCall p.nextKey).respond id method
        (.error (.ofCode .invalidParams text))).closeUnheld

/-- The handler of `r` is called with `x` at once, and nothing is answered. -/
structure Handles (p : Peer) (method : String) (r : Service.Route NotificationHandler) (x : Datum)
    (m : Except Issue Message) : Prop where
  handled : p.receive m =
    (p.record (.invoked ⟨.notification, r.service, r.method,
      r.handler.params.payload x⟩)).logVerdict method (r.handler.serve x)
  unanswered : (p.receive m).outgoing = p.outgoing

/-- No handler is called, and nothing is answered. -/
structure Ignores (p : Peer) (m : Except Issue Message) : Prop where
  logged : ∃ es : List LogEntry, (p.receive m).journal = p.journal ++ es.map .log
  unanswered : (p.receive m).outgoing = p.outgoing

section
variable {p : Peer} {id : MessageId} {method : String} {params : Payload} {x : Datum}
  {e : DataError}

theorem handleRequest_eq_accept (hknown : p.codec.catalog.contains method = true)
    (hfree : p.calls.any (·.id == id) = false) :
    p.handleRequest id method params = p.accept (p.newCall id method params) := by
  simp [handleRequest, hknown, hfree, accept, newCall]

theorem runCall_newCall {key : Nat} {c : Call} (hc : p.calls.find? (·.key == key) = some c)
    (hlive : c.cancelled = false) (hnew : c.activity = none) :
    p.runCall key = (p.startCall c).2.goOn c (p.startCall c).1 := by
  have hkey : c.key = key := by simpa using List.find?_some hc
  subst hkey
  simp only [runCall, hc, hlive, hnew, goOn]
  rfl

theorem reaches_of_decode {r : Service.Route RequestHandler}
    (h : p.service.findRequest method = some r)
    (hknown : p.codec.catalog.contains method = true) (hfree : p.calls.any (·.id == id) = false)
    (hx : params.decode r.handler.params = .ok x) :
    p.Reaches id method r x (.ok (.request id method params)) := by
  refine ⟨params, handleRequest_eq_accept hknown hfree, fun q hq hcall => ?_⟩
  have hstart : q.startCall (p.newCall id method params) = (r.handler.serve x,
      q.record (.invoked ⟨.request, r.service, r.method, r.handler.params.payload x⟩)) := by
    rw [startCall, hq, newCall, Service.callRequest_of_decode h hx]
    rfl
  rw [runCall_newCall hcall rfl rfl, hstart]

theorem refuses_of_decode {r : Service.Route RequestHandler}
    (h : p.service.findRequest method = some r)
    (hpolicy : p.policy = defaultPolicy) (hknown : p.codec.catalog.contains method = true)
    (hfree : p.calls.any (·.id == id) = false) (he : params.decode r.handler.params = .error e) :
    p.Refuses id method (.ok (.request id method params)) := by
  refine .inr ⟨params, e.message, handleRequest_eq_accept hknown hfree, fun q hq hp hcall => ?_⟩
  have hstart : q.startCall (p.newCall id method params) =
      (.done (.fault (.invalidParams e.message)), q) := by
    rw [startCall, hq, newCall, Service.callRequest_of_decode_error h he]
    rfl
  rw [runCall_newCall hcall rfl rfl, hstart]
  have hfail : q.policy method (.invalidParams e.message) =
      (.ofCode .invalidParams e.message, []) := by
    rw [hp, hpolicy]
    rfl
  simp only [goOn, Activity.resume, settle, failCall, newCall, hfail]
  rfl

theorem refuses_issue {i : Issue} (hcode : i.code = .invalidParams) (hid : i.id = some id)
    (hmethod : i.method = some method) : p.Refuses id method (.error i) := by
  refine .inl ⟨⟨.warn, s!"Rejecting request {id.display} '{method}': {i.message}"⟩, i.message, ?_⟩
  simp only [receive, handleIssue, hid, hmethod]
  rw [Issue.responseError, hcode]
  rfl

theorem handles_of_decode {r : Service.Route NotificationHandler}
    (h : p.service.findNotification method = some r)
    (hknown : p.codec.catalog.contains method = true) (hplain : method ≠ Message.cancelMethod)
    (hx : params.decode r.handler.params = .ok x) :
    p.Handles method r x (.ok (.notification method params)) := by
  have hhandled : p.receive (.ok (.notification method params)) =
      (p.record (.invoked ⟨.notification, r.service, r.method,
        r.handler.params.payload x⟩)).logVerdict method (r.handler.serve x) := by
    have hhanded : p.handleNotification method params = _ :=
      handleNotification_of_handed hplain hknown
    rw [Service.callNotification_of_decode h hx] at hhanded
    exact hhanded
  constructor
  · exact hhandled
  · rw [hhandled]
    cases r.handler.serve x <;> rfl

theorem ignores_of_write {m : Except Issue Message} {entry : LogEntry}
    (h : p.receive m = p.write entry) : p.Ignores m where
  logged := ⟨[entry], by rw [h]; rfl⟩
  unanswered := by
    rw [h]
    rfl

theorem ignores_of_decode {r : Service.Route NotificationHandler}
    (h : p.service.findNotification method = some r)
    (hknown : p.codec.catalog.contains method = true) (hplain : method ≠ Message.cancelMethod)
    (he : params.decode r.handler.params = .error e) :
    p.Ignores (.ok (.notification method params)) := by
  have hhanded : p.handleNotification method params = _ :=
    handleNotification_of_handed hplain hknown
  rw [Service.callNotification_of_decode_error h he] at hhanded
  exact ignores_of_write hhanded

theorem ignores_cancelServed {m : Except Issue Message} (h : p.receive m = p.cancelServed id) :
    p.Ignores m := by
  cases hcall : p.calls.find? (·.id == id) with
  | none =>
    rw [cancelServed, hcall] at h
    exact ignores_of_write h
  | some c =>
    rw [cancelServed, hcall] at h
    constructor
    · exact ⟨[_], by rw [h]; rfl⟩
    · rw [h]
      rfl

theorem ignores_cancellation (p : Peer) (params : Payload) :
    p.Ignores (.ok (.notification Message.cancelMethod params)) := by
  have hown := handleOwnNotification?_cancel p params
  cases hid : CancelParams.decode params with
  | error e =>
    rw [hid] at hown
    exact ignores_of_write (handleNotification_of_own hown)
  | ok id =>
    rw [hid] at hown
    exact ignores_cancelServed (handleNotification_of_own hown)

theorem ignores_issue {i : Issue} (hid : i.id = none) : p.Ignores (.error i) := by
  apply ignores_of_write
  simp only [receive, handleIssue, hid]
  rfl

end

section
variable {p : Peer} {method : String} {raw : Option Json} {u : Payload} {m : Except Issue Message}
  {entry : MethodEntry} (hentry : p.codec.catalog.find? method = some entry)
include hentry

theorem contains_of_find? : p.codec.catalog.contains method = true := by
  rw [Catalog.contains, hentry]
  rfl

theorem requests_alike {r : Service.Route RequestHandler} {id : MessageId}
    (h : p.service.findRequest method = some r) (hshape : entry.params = r.handler.params)
    (hpolicy : p.policy = defaultPolicy) (hfree : p.calls.any (·.id == id) = false)
    (hu : u.Unresolved (raw.getD .null)) (hm : p.codec.Takes (some id) method raw m) :
    (∀ x, r.handler.params.decode (raw.getD .null) = .ok x →
      p.Reaches id method r x m ∧ p.Reaches id method r x (.ok (.request id method u))) ∧
    ∀ e, r.handler.params.decode (raw.getD .null) = .error e →
      p.Refuses id method m ∧ p.Refuses id method (.ok (.request id method u)) := by
  have hknown := contains_of_find? hentry
  have hraw : u.decode r.handler.params = r.handler.params.decode (raw.getD .null) :=
    hu.decode r.handler.params
  have hcases := hm.cases hentry
  rw [hshape] at hcases
  constructor
  · intro x hx
    have hunresolved := reaches_of_decode h hknown hfree (hraw.trans hx)
    rcases hcases with ⟨q, rfl, hq⟩ | ⟨e, i, -, -, -, -, he⟩
    · exact ⟨reaches_of_decode h hknown hfree (hq.trans hx), hunresolved⟩
    · cases hx.symm.trans he
  · intro e he
    have hunresolved := refuses_of_decode h hpolicy hknown hfree (hraw.trans he)
    -- a tree that is `null` gets past the codec, and only the handler finds it cannot be decoded
    rcases hcases with ⟨q, rfl, hq⟩ | ⟨-, i, rfl, hcode, hid, hmethod, -⟩
    · exact ⟨refuses_of_decode h hpolicy hknown hfree (hq.trans he), hunresolved⟩
    · exact ⟨refuses_issue hcode hid hmethod, hunresolved⟩

theorem notifications_alike {r : Service.Route NotificationHandler}
    (h : p.service.findNotification method = some r) (hshape : entry.params = r.handler.params)
    (hu : u.Unresolved (raw.getD .null)) (hm : p.codec.Takes none method raw m) :
    (∀ x, method ≠ Message.cancelMethod → r.handler.params.decode (raw.getD .null) = .ok x →
      p.Handles method r x m ∧ p.Handles method r x (.ok (.notification method u))) ∧
    ((method = Message.cancelMethod ∨
        ∃ e, r.handler.params.decode (raw.getD .null) = .error e) →
      p.Ignores m ∧ p.Ignores (.ok (.notification method u))) := by
  have hknown := contains_of_find? hentry
  have hraw : u.decode r.handler.params = r.handler.params.decode (raw.getD .null) :=
    hu.decode r.handler.params
  have hcases := hm.cases hentry
  rw [hshape] at hcases
  constructor
  · intro x hplain hx
    have hunresolved := handles_of_decode h hknown hplain (hraw.trans hx)
    rcases hcases with ⟨q, rfl, hq⟩ | ⟨e, i, -, -, -, -, he⟩
    · exact ⟨handles_of_decode h hknown hplain (hq.trans hx), hunresolved⟩
    · cases hx.symm.trans he
  · intro hignored
    have hevery : ∀ q : Payload,
        q.decode r.handler.params = r.handler.params.decode (raw.getD .null) →
          p.Ignores (.ok (.notification method q)) := by
      intro q hq
      by_cases hcancel : method = Message.cancelMethod
      · rw [hcancel]
        exact ignores_cancellation p q
      · obtain ⟨e, he⟩ := hignored.resolve_left hcancel
        exact ignores_of_decode h hknown hcancel (hq.trans he)
    rcases hcases with ⟨q, rfl, hq⟩ | ⟨-, i, rfl, -, hid, -, -⟩
    · exact ⟨hevery q hq, hevery u hraw⟩
    · exact ⟨ignores_issue hid, hevery u hraw⟩

end
end Peer

/-- Whether the codec has resolved its parameters or they come as the same tree, a call gets to its
handler with the same value, or else in both forms it does not: then a request is answered that its
parameters are invalid, unless its id is in use or it is cancelled before it is run. -/
theorem params_reach_alike {s : Service} (hs : s.Built) {d : CatalogDraft}
    (h : Service.Serves d s) {p : Peer} {entry : LogEntry}
    (hb : d.build = .ok (p.codec.catalog, entry)) (hservice : p.service = s)
    (hpolicy : p.policy = defaultPolicy) (method : String) (raw : Option Json) (u : Payload)
    (hu : u.Unresolved (raw.getD .null)) :
    (∀ r ∈ Service.candidates Service.requests method s, ∀ id m,
      p.codec.Takes (some id) method raw m → p.calls.any (·.id == id) = false →
        (∀ x, r.handler.params.decode (raw.getD .null) = .ok x →
          p.Reaches id method r x m ∧ p.Reaches id method r x (.ok (.request id method u))) ∧
        ∀ e, r.handler.params.decode (raw.getD .null) = .error e →
          p.Refuses id method m ∧ p.Refuses id method (.ok (.request id method u))) ∧
    ∀ r ∈ Service.candidates Service.notifications method s, ∀ m,
      p.codec.Takes none method raw m →
        (∀ x, method ≠ Message.cancelMethod → r.handler.params.decode (raw.getD .null) = .ok x →
          p.Handles method r x m ∧ p.Handles method r x (.ok (.notification method u))) ∧
        ((method = Message.cancelMethod ∨
            ∃ e, r.handler.params.decode (raw.getD .null) = .error e) →
          p.Ignores m ∧ p.Ignores (.ok (.notification method u))) := by
  subst hservice
  constructor
  · intro r hr id m hm hfree
    obtain ⟨hfound, hentry⟩ := Service.describes_requests.find_of_mem h hs hb hr
    exact Peer.requests_alike hentry hfound rfl hpolicy hfree hu hm
  · intro r hr m hm
    obtain ⟨hfound, hentry⟩ := Service.describes_notifications.find_of_mem h hs hb hr
    exact Peer.notifications_alike hentry hfound rfl hu hm

theorem params_reach_alike_one_tree :
    let s := ((Service.empty "srv" "a/").onRequest "x" (.echo .text)).onNotification "n"
      (.ignore .bool)
    let d : CatalogDraft := { groups := s.groups, localRoots := [s.name] }
    let request := "\x7b\"jsonrpc\":\"2.0\",\"id\":7,\"method\":\"a/x\",\"params\":true\x7d"
    let notification := "\x7b\"jsonrpc\":\"2.0\",\"method\":\"a/n\",\"params\":true\x7d"
    s.Built ∧ Service.Serves d s ∧ ∃ c entry, d.build = .ok (c, entry) ∧
      let p : Peer := { codec := ⟨.base, c, 1⟩, service := s }
      p.Refuses (.number 7) "a/x" (p.codec.decodeText noMethods request).result ∧
      p.Refuses (.number 7) "a/x" (.ok (.request (.number 7) "a/x" (.json (.bool true)))) ∧
      p.Handles "a/n" ⟨"srv", "n", .ignore .bool⟩ (.bool true)
        (p.codec.decodeText noMethods notification).result ∧
      p.Handles "a/n" ⟨"srv", "n", .ignore .bool⟩ (.bool true)
        (.ok (.notification "a/n" (.json (.bool true)))) := by
  intro s d request notification
  have hs : s.Built := .onNotification _ _ (.onRequest _ _ (.empty _ _))
  have h : Service.Serves d s := ⟨⟨[], by simp [d]⟩, by decide⟩
  have hb : ∃ r, d.build = .ok r := ⟨_, by cbv⟩
  obtain ⟨⟨c, entry⟩, hb⟩ := hb
  let p : Peer := { codec := ⟨.base, c, 1⟩, service := s }
  have hu : (Payload.json (.bool true)).Unresolved ((some (Json.bool true)).getD .null) := rfl
  have hrequest : Json.parseMembers request = .ok [("jsonrpc", .str "2.0"), ("id", .int 7),
    ("method", .str "a/x"), ("params", .bool true)] := by cbv
  have hnotification : Json.parseMembers notification = .ok [("jsonrpc", .str "2.0"),
    ("method", .str "a/n"), ("params", .bool true)] := by cbv
  have hx := params_reach_alike hs h hb (p := p) rfl rfl "a/x" (some (.bool true)) _ hu
  have hn := params_reach_alike hs h hb (p := p) rfl rfl "a/n" (some (.bool true)) _ hu
  have htakes : p.codec.Takes (some (.number 7)) "a/x" (some (.bool true))
      (p.codec.decodeText noMethods request).result := by
    refine .text (e := Base.versioned (some (.number 7)) (some "a/x") [("params", .bool true)])
      noMethods request ?_ ⟨?_, rfl, rfl, rfl⟩
    · exact (Envelope.scanText_of_parseMembers hrequest).trans rfl
    · rintro v ⟨⟩
      rfl
  have htakes' : p.codec.Takes none "a/n" (some (.bool true))
      (p.codec.decodeText noMethods notification).result := by
    refine .text (e := Base.versioned none (some "a/n") [("params", .bool true)])
      noMethods notification ?_ ⟨?_, rfl, rfl, rfl⟩
    · exact (Envelope.scanText_of_parseMembers hnotification).trans rfl
    · rintro v ⟨⟩
      rfl
  have hr : ⟨"srv", "x", .echo .text⟩ ∈ Service.candidates Service.requests "a/x" s :=
    Service.mem_candidates.mpr ⟨s, Service.self_mem_all s, rfl, .head _, rfl⟩
  have hr' : ⟨"srv", "n", .ignore .bool⟩ ∈ Service.candidates Service.notifications "a/n" s :=
    Service.mem_candidates.mpr ⟨s, Service.self_mem_all s, rfl, .head _, rfl⟩
  have hrefused := (hx.1 _ hr (.number 7) _ htakes rfl).2 _ rfl
  have hhandled := (hn.2 _ hr' _ htakes').1 (.bool true) (by decide) rfl
  exact ⟨hs, h, c, entry, hb, hrefused.1, hrefused.2, hhandled.1, hhandled.2⟩

/-- A request whose parameters are unresolved is first of all one whose id may be in use, and one
that may be cancelled before they are looked at. -/
theorem bad_params_unnoticed :
    let s := (Service.empty "srv" "a/").onRequest "x" (.untilCancelled .text)
    let d : CatalogDraft := { groups := s.groups, localRoots := [s.name] }
    let c : Catalog := ⟨[⟨"a/x", .request, .text, some .json⟩]⟩
    let busy : Call := ⟨0, .number 7, "a/x", .typed "text" (.text "go"), false,
      some (.untilCancelled (.done (.fault .cancelled)))⟩
    let p : Peer := { codec := ⟨.base, c, 1⟩, service := s }
    let q : Peer := { p with calls := [busy], nextKey := 1 }
    let text := "\x7b\"jsonrpc\":\"2.0\",\"id\":7,\"method\":\"a/x\",\"params\":true\x7d"
    let unresolved : Message := .request (.number 7) "a/x" (.json (.bool true))
    (∃ entry, d.build = .ok (c, entry)) ∧ Service.Serves d s ∧
      (∃ reason, (q.receive (q.codec.decodeText noMethods text).result).outgoing =
        [.response (some (.number 7)) (some "a/x") (.error (.ofCode .invalidParams reason))]) ∧
      (q.receive (.ok unresolved)).outgoing = [.response (some (.number 7)) (some "a/x")
        (.error (.ofCode .invalidRequest "Request id 7 is already in use"))] ∧
      (((p.receive (.ok unresolved)).cancelServed (.number 7)).runCall 0).outgoing = [] := by
  intro s d c busy p q text unresolved
  have hms : Json.parseMembers text = .ok [("jsonrpc", .str "2.0"), ("id", .int 7),
    ("method", .str "a/x"), ("params", .bool true)] := by cbv
  have hb : ∃ entry, d.build = .ok (c, entry) := ⟨_, by cbv⟩
  have h : Service.Serves d s := ⟨⟨[], by simp [d]⟩, by decide⟩
  refine ⟨hb, h, ?_, rfl, rfl⟩
  rw [Codec.decodeText_of_parseMembers hms]
  exact ⟨_, rfl⟩

end RpcPeer
