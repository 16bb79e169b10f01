import RpcPeer.Proofs.Dialect.Writing

/-! Messages of the base dialect are read back from their texts. -/
namespace RpcPeer
namespace Base
open Json Steps

theorem encode_eq_ok {m : Message} {v : Json} (h : encode m = .ok v) :
    ∃ ms, members m = .ok ms ∧ v = ofMembers (("jsonrpc", .str version) :: ms) := by
  obtain ⟨ms, hms, h⟩ := bind_eq_ok.mp h
  cases h
  exact ⟨ms, hms, rfl⟩

section
variable {id : MessageId} {method : String} {p : Payload} {ms : List (String × Json)}

theorem members_request (h : members (.request id method p) = .ok ms) :
    ∃ j, p.toJson = .ok j ∧
      ms = ("id", id.toJson) :: ("method", .str method) :: Payload.memberOf "params" j := by
  obtain ⟨ps, hps, h⟩ := bind_eq_ok.mp h
  obtain ⟨j, hj, rfl⟩ := Payload.member_eq_ok hps
  cases h
  exact ⟨j, hj, rfl⟩

theorem members_notification (h : members (.notification method p) = .ok ms) :
    ∃ j, p.toJson = .ok j ∧ ms = ("method", .str method) :: Payload.memberOf "params" j := by
  obtain ⟨ps, hps, h⟩ := bind_eq_ok.mp h
  obtain ⟨j, hj, rfl⟩ := Payload.member_eq_ok hps
  cases h
  exact ⟨j, hj, rfl⟩

/-- The id of a response as it is written. -/
def writtenId (id : Option MessageId) : Json := id.elim .null MessageId.toJson

theorem members_result {id : Option MessageId} {name : Option String}
    (h : members (.response id name (.result p)) = .ok ms) :
    ∃ j, p.toJson = .ok j ∧ ms = [("id", writtenId id), ("result", j.getD .null)] := by
  cases id <;>
  · obtain ⟨j, hj, h⟩ := bind_eq_ok.mp h
    cases h
    exact ⟨j, Payload.written_eq_ok.mp hj, rfl⟩

theorem members_error {id : Option MessageId} {name : Option String} {e : ResponseError}
    (h : members (.response id name (.error e)) = .ok ms) :
    ms = [("id", writtenId id), ("error", e.toJson)] := by
  cases id <;>
  · cases h
    rfl

end

/-- An envelope of this version. -/
def versioned (id : Option MessageId) (method : Option String) (fields : List (String × Json)) :
    Envelope where
  version := some version
  id := id
  method := method
  fields := fields
  inObject := true

section
variable {id : Option MessageId} {method : Option String} {ms : List (String × Json)}

theorem scan_version :
    Envelope.scanTree .base { inObject := true } (("jsonrpc", .str version) :: ms) =
      Envelope.scanTree .base (versioned none none []) ms := by
  have hk : Slot.ofKey? .base "jsonrpc" = some .version := by decide
  have hv : Slot.version.shape.decode (.str version) = .ok (.text version) := rfl
  exact Envelope.scanTree_slot hk hv

theorem decode_writtenId (id : Option MessageId) :
    Slot.id.shape.decode (writtenId id) = .ok (id.elim .absent MessageId.toDatum) := by
  cases id with
  | none => rfl
  | some id =>
    have hnull : id.toJson.isNull = false := by cases id <;> rfl
    change Shape.decode (.option .id) id.toJson = _
    rw [Shape.decode, hnull]
    exact Shape.decodeId_toJson id

theorem scan_id (id : Option MessageId) (ms : List (String × Json)) :
    Envelope.scanTree .base (versioned none none []) (("id", writtenId id) :: ms) =
      Envelope.scanTree .base (versioned id none []) ms := by
  have hk : Slot.ofKey? .base "id" = some .id := by decide
  have hfill : (versioned none none []).fill .id (id.elim .absent MessageId.toDatum) =
      versioned id none [] := by
    cases id with
    | none => rfl
    | some id => simp [Envelope.fill, versioned, MessageId.ofDatum?_toDatum]
  rw [Envelope.scanTree_slot hk (decode_writtenId id), hfill]

theorem scan_method (name : String) :
    Envelope.scanTree .base (versioned id none []) (("method", .str name) :: ms) =
      Envelope.scanTree .base (versioned id (some name) []) ms := by
  have hk : Slot.ofKey? .base "method" = some .method := by decide
  have hv : Slot.method.shape.decode (.str name) = .ok (.text name) := rfl
  exact Envelope.scanTree_slot hk hv

theorem scan_params (j : Option Json) :
    Envelope.scanTree .base (versioned id method []) (Payload.memberOf "params" j) =
      (versioned id method (Payload.memberOf "params" j), none) :=
  Envelope.scanTree_memberOf (by decide) j

theorem scan_outcome {name : String} (hk : Slot.ofKey? .base name = none) (v : Json) :
    Envelope.scanTree .base { inObject := true }
      [("jsonrpc", .str version), ("id", writtenId id), (name, v)] =
      (versioned id none [(name, v)], none) := by
  rw [scan_version, scan_id, Envelope.scanTree_field hk]
  rfl

end

section
variable (catalog : Catalog) (methods : MethodLookup)

section
variable {method : String} {ns : List (String × Json)} {q : Payload}

theorem resolve_request {id : MessageId}
    (hq : catalog.resolveParams method
      ((versioned (some id) (some method) ns).takeField "params") = .ok q) :
    (resolve catalog methods (versioned (some id) (some method) ns) none).result =
      .ok (.request id method q) := by
  change resolveCall catalog _ method (some id) = _
  unfold resolveCall
  rw [hq]

theorem resolve_notification
    (hq : catalog.resolveParams method
      ((versioned none (some method) ns).takeField "params") = .ok q) :
    (resolve catalog methods (versioned none (some method) ns) none).result =
      .ok (.notification method q) := by
  change resolveCall catalog _ method none = _
  unfold resolveCall
  rw [hq]

end

theorem resolve_result (id : Option MessageId) (v : Json) :
    (resolve catalog methods (versioned id none [("result", v)]) none).result =
      .ok (.response id none
        (.result (catalog.resolveResult (id >>= methods) (present (some v))).1)) := by
  have herror : (versioned id none [("result", v)]).takeField "error" = none := rfl
  have htake : (versioned id none [("result", v)]).takeField "result" = present (some v) :=
    Envelope.takeField_eq _ _
  have hout : hasOutcome (versioned id none [("result", v)]) = true := rfl
  change (resolveResponse catalog methods _ id).result = _
  rw [resolveResponse, hout, herror, htake]
  simp

theorem resolve_error (id : Option MessageId) {raw : Json} {e : ResponseError}
    (hraw : present (some raw) = some raw) (hdecode : ResponseError.decode raw = .ok e) :
    (resolve catalog methods (versioned id none [("error", raw)]) none).result =
      .ok (.response id none (.error e)) := by
  have htake : (versioned id none [("error", raw)]).takeField "error" = some raw :=
    (Envelope.takeField_eq _ _).trans hraw
  have hout : hasOutcome (versioned id none [("error", raw)]) = true := rfl
  change (resolveResponse catalog methods _ id).result = _
  rw [resolveResponse, hout, htake]
  simp [hdecode]

end

section
variable {catalog : Catalog} {next : Int64} {methods : MethodLookup} {p : Payload}
  {ms : List (String × Json)}

theorem recovers_request {id : MessageId} {method : String}
    (h : members (.request id method p) = .ok ms)
    (hr : p.Readable (catalog.paramsShape? method)) :
    (⟨.base, catalog, next⟩ : Codec).Recovers methods (("jsonrpc", .str version) :: ms)
      (.request id method p) := by
  obtain ⟨j, hj, rfl⟩ := members_request h
  obtain ⟨q, hread, hq⟩ := Payload.resolveParams_written hr hj
  rw [← Envelope.takeField_memberOf (e := versioned (some id) (some method) _) rfl] at hread
  have hres := resolve_request catalog methods hread
  constructor
  · rcases Payload.names_memberOf "params" j with hnames | hnames <;>
      simp [Envelope.Distinct, hnames]
  · refine ⟨_, _, ?_, hres, Message.request_beq id method hq⟩
    rw [scan_version]
    exact (scan_id (some id) _).trans ((scan_method method).trans (scan_params j))

theorem recovers_notification {method : String} (h : members (.notification method p) = .ok ms)
    (hr : p.Readable (catalog.paramsShape? method)) :
    (⟨.base, catalog, next⟩ : Codec).Recovers methods (("jsonrpc", .str version) :: ms)
      (.notification method p) := by
  obtain ⟨j, hj, rfl⟩ := members_notification h
  obtain ⟨q, hread, hq⟩ := Payload.resolveParams_written hr hj
  rw [← Envelope.takeField_memberOf (e := versioned none (some method) _) rfl] at hread
  have hres := resolve_notification catalog methods hread
  constructor
  · rcases Payload.names_memberOf "params" j with hnames | hnames <;>
      simp [Envelope.Distinct, hnames]
  · refine ⟨_, _, ?_, hres, Message.notification_beq method hq⟩
    rw [scan_version]
    exact (scan_method method).trans (scan_params j)

variable {id : Option MessageId} {name : Option String}

theorem recovers_result (h : members (.response id name (.result p)) = .ok ms)
    (hr : p.Readable (catalog.resultShape? (id >>= methods))) :
    (⟨.base, catalog, next⟩ : Codec).Recovers methods (("jsonrpc", .str version) :: ms)
      (.response id none (.result p)) := by
  obtain ⟨j, hj, rfl⟩ := members_result h
  have hq := Payload.resolveResult_written hr hj
  have hpresent : present (some (j.getD .null)) = present j := by cases j <;> rfl
  rw [← hpresent] at hq
  have hres := resolve_result catalog methods id (j.getD .null)
  constructor
  · simp [Envelope.Distinct]
  · exact ⟨_, _, scan_outcome (by decide) _, hres, Message.result_beq id none hq⟩

theorem recovers_error {e : ResponseError} (h : members (.response id name (.error e)) = .ok ms)
    (hdata : e.data ≠ some .null) :
    (⟨.base, catalog, next⟩ : Codec).Recovers methods (("jsonrpc", .str version) :: ms)
      (.response id none (.error e)) := by
  obtain rfl := members_error h
  constructor
  · simp [Envelope.Distinct]
  · have hres := resolve_error catalog methods id rfl (ResponseError.decode_toJson e hdata)
    exact ⟨_, _, scan_outcome (by decide) _, hres, Message.error_beq id none e⟩

/-- The method that a response answers, if the lookup knows it, has the shape of its result; without
it the result may be anything. -/
theorem readable_result {answered : Option String} (hr : p.Readable (catalog.resultShape? answered))
    (h : ∀ i ∈ id, methods i = answered ∨ methods i = none) :
    p.Readable (catalog.resultShape? (id >>= methods)) := by
  cases id with
  | none => exact .inr (.inr (.inl rfl))
  | some i =>
    change p.Readable (catalog.resultShape? (methods i))
    rcases h i rfl with hi | hi
    · rw [hi]
      exact hr
    · rw [hi]
      exact .inr (.inr (.inl rfl))

end
end Base

namespace Codec

/-- A message is read back from the text that it is encoded to, but for the method of a response,
which is not written. -/
theorem base_round_trip (c : Codec) (methods : MethodLookup) (answered : Option String)
    (m : Message) (text : String) (hbase : c.dialect = .base)
    (htext : (c.encodeText m).1 = .ok text)
    (hplain : ∀ v, (c.encode m).1 = .ok v → Json.Plain Json.maxDepth v)
    (hread : m.Readable c.catalog answered)
    (hanswered : ∀ id ∈ m.answers?, methods id = answered ∨ methods id = none)
    (hdata : ∀ e ∈ m.error?, e.data ≠ some .null) :
    ∃ m', ((c.encodeText m).2.decodeText methods text).result = .ok m' ∧
      (m' == m.withoutMethod) = true := by
  obtain ⟨dialect, catalog, next⟩ := c
  obtain rfl : dialect = .base := hbase
  obtain ⟨v, hv, rfl⟩ := encodeText_eq_ok htext
  have hp := hplain v hv
  obtain ⟨ms, hms, rfl⟩ := Base.encode_eq_ok hv
  rw [decodeText_encodeText]
  refine Recovers.decodeText ?_ hp
  cases m with
  | request id method params => exact Base.recovers_request hms hread
  | notification method params => exact Base.recovers_notification hms hread
  | response id method outcome =>
    cases outcome with
    | result p => exact Base.recovers_result hms (Base.readable_result hread hanswered)
    | error e => exact Base.recovers_error hms (hdata e rfl)

theorem base_round_trip_typed_result :
    let c : Codec := ⟨.base, ⟨[⟨"add", .request, .list (.int .int64), some (.int .int64)⟩]⟩, 1⟩
    let methods : MethodLookup := fun _ => some "add"
    let m : Message :=
      .response (some (.text "a\"b")) (some "add") (.result (.typed "i64" (.int 5)))
    let text := "\x7b\"id\":\"a\\\"b\",\"jsonrpc\":\"2.0\",\"result\":5\x7d"
    (c.encodeText m).1 = .ok text ∧ m.Readable c.catalog (some "add") ∧
      ∃ m', ((c.encodeText m).2.decodeText methods text).result = .ok m' ∧
        (m' == m.withoutMethod) = true := by
  intro c methods m text
  have htext : (c.encodeText m).1 = .ok text := by cbv
  have hv : (c.encode m).1 = .ok (.obj [("id", .str "a\"b"), ("jsonrpc", .str "2.0"),
    ("result", .int 5)]) := rfl
  have hplain : ∀ v, (c.encode m).1 = .ok v → Json.Plain (126 + 1) v := by
    intro v h
    obtain rfl := Except.ok.inj (hv.symm.trans h)
    exact .obj (by decide) (by simp [Json.Plain.str, Json.Plain.int])
  have hread : m.Readable c.catalog (some "add") :=
    .inr (.inr (.inr ⟨.int .int64, .int 5, .typed "i64" (.int 5), rfl, rfl, rfl, rfl⟩))
  have hmethods : ∀ id ∈ m.answers?, methods id = some "add" ∨ methods id = none :=
    fun id _ => .inl rfl
  have hdata : ∀ e ∈ m.error?, e.data ≠ some .null := by simp [m, Message.error?]
  exact ⟨htext, hread,
    base_round_trip c methods (some "add") m text rfl htext hplain hread hmethods hdata⟩

end Codec
end RpcPeer
