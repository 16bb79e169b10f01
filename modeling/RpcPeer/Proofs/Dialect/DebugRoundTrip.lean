import RpcPeer.Proofs.Dialect.Writing

/-! Messages of the debug dialect are read back, with the method of a response. -/
namespace RpcPeer
namespace Debug
open Json Steps

section
variable {n k : Int64} {method : String} {p : Payload} {ms : List (String × Json)}

theorem requestMembers_eq_ok (h : requestMembers (.number n) method p = .ok ms) :
    ∃ j, p.toJson = .ok j ∧
      ms = ("seq", .int n.toInt) :: ("type", .str request) :: ("command", .str method) ::
        Payload.memberOf "arguments" j := by
  obtain ⟨seq, hseq, h⟩ := bind_eq_ok.mp h
  obtain ⟨ps, hps, h⟩ := bind_eq_ok.mp h
  obtain ⟨j, hj, rfl⟩ := Payload.member_eq_ok hps
  cases hseq
  cases h
  exact ⟨j, hj, rfl⟩

theorem eventMembers_eq_ok (h : eventMembers k method p = .ok ms) :
    ∃ j, p.toJson = .ok j ∧
      ms = ("seq", .int k.toInt) :: ("type", .str event) :: ("event", .str method) ::
        Payload.memberOf "body" j := by
  obtain ⟨ps, hps, h⟩ := bind_eq_ok.mp h
  obtain ⟨j, hj, rfl⟩ := Payload.member_eq_ok hps
  cases h
  exact ⟨j, hj, rfl⟩

/-- The members that all responses have. -/
def responseHead (k n : Int64) (ok : Bool) (method : Option String) : List (String × Json) :=
  [("seq", .int k.toInt), ("type", .str response), ("request_seq", .int n.toInt),
    ("success", .bool ok)] ++ (method.toList.map fun m => ("command", .str m))

theorem responseMembers_eq_ok {name : Option String} {outcome : Outcome}
    (h : responseMembers k n name outcome = .ok ms) :
    ∃ ps, outcomeMembers outcome = .ok ps ∧ ms = responseHead k n outcome.isResult name ++ ps := by
  obtain ⟨ps, hps, h⟩ := bind_eq_ok.mp h
  cases h
  cases name <;> exact ⟨ps, hps, rfl⟩

/-- The detail of an error as it is written. -/
def writtenDetail (e : ResponseError) : List (String × Json) :=
  [("id", .int e.code.toInt), ("format", .str e.message)] ++
    match e.data with
    | none => []
    | some v => [("data", v)]

/-- The body of a response that reports an error. -/
def writtenBody (e : ResponseError) : Json := ofMembers [("error", ofMembers (writtenDetail e))]

theorem outcomeMembers_error (e : ResponseError) :
    outcomeMembers (.error e) = .ok [("message", .str e.message), ("body", writtenBody e)] := rfl

end

/-- The envelope of a request. -/
def requested (n : Int64) (method : String) (fields : List (String × Json)) : Envelope where
  seq := some n
  kind := some request
  method := some method
  fields := fields
  inObject := true

/-- The envelope of an event. -/
def raised (k : Int64) (method : String) (fields : List (String × Json)) : Envelope where
  seq := some k
  kind := some event
  method := some method
  fields := fields
  inObject := true

/-- The envelope of a response. -/
def answered (k n : Int64) (ok : Bool) (method message : Option String)
    (fields : List (String × Json)) : Envelope where
  seq := some k
  kind := some response
  requestSeq := some n
  success := some ok
  method := method
  message := message
  fields := fields
  inObject := true

section
variable {e : Envelope} {ms : List (String × Json)}

theorem scan_seq (n : Int64) :
    Envelope.scanTree .debug e (("seq", .int n.toInt) :: ms) =
      Envelope.scanTree .debug { e with seq := some n } ms := by
  have hk : Slot.ofKey? .debug "seq" = some .seq := by decide
  have hfill : e.fill .seq (.int n.toInt) = { e with seq := some (Int64.ofInt n.toInt) } := rfl
  rw [Envelope.scanTree_slot hk (Shape.decodeInt_int64 n), hfill, Int64.ofInt_toInt]

theorem scan_requestSeq (n : Int64) :
    Envelope.scanTree .debug e (("request_seq", .int n.toInt) :: ms) =
      Envelope.scanTree .debug { e with requestSeq := some n } ms := by
  have hk : Slot.ofKey? .debug "request_seq" = some .requestSeq := by decide
  have hfill : e.fill .requestSeq (.int n.toInt) =
      { e with requestSeq := some (Int64.ofInt n.toInt) } := rfl
  rw [Envelope.scanTree_slot hk (Shape.decodeInt_int64 n), hfill, Int64.ofInt_toInt]

theorem scan_type (kind : String) :
    Envelope.scanTree .debug e (("type", .str kind) :: ms) =
      Envelope.scanTree .debug { e with kind := some kind } ms := by
  have hk : Slot.ofKey? .debug "type" = some .kind := by decide
  have hv : Slot.kind.shape.decode (.str kind) = .ok (.text kind) := rfl
  exact Envelope.scanTree_slot hk hv

/-- Either name of a method, by the type of the message. -/
theorem scan_method {key : String} (hk : Slot.ofKey? .debug key = some .method) (name : String) :
    Envelope.scanTree .debug e ((key, .str name) :: ms) =
      Envelope.scanTree .debug { e with method := some name } ms := by
  have hv : Slot.method.shape.decode (.str name) = .ok (.text name) := rfl
  exact Envelope.scanTree_slot hk hv

theorem scan_success (ok : Bool) :
    Envelope.scanTree .debug e (("success", .bool ok) :: ms) =
      Envelope.scanTree .debug { e with success := some ok } ms := by
  have hk : Slot.ofKey? .debug "success" = some .success := by decide
  have hv : Slot.success.shape.decode (.bool ok) = .ok (.bool ok) := rfl
  exact Envelope.scanTree_slot hk hv

theorem scan_message (s : String) :
    Envelope.scanTree .debug e (("message", .str s) :: ms) =
      Envelope.scanTree .debug { e with message := some s } ms := by
  have hk : Slot.ofKey? .debug "message" = some .message := by decide
  have hv : Slot.message.shape.decode (.str s) = .ok (.text s) := rfl
  exact Envelope.scanTree_slot hk hv

theorem scan_request (n : Int64) (method : String) :
    Envelope.scanTree .debug { inObject := true }
      (("seq", .int n.toInt) :: ("type", .str request) :: ("command", .str method) :: ms) =
        Envelope.scanTree .debug (requested n method []) ms :=
  (scan_seq n).trans ((scan_type request).trans (scan_method (by decide) method))

theorem scan_event (k : Int64) (method : String) :
    Envelope.scanTree .debug { inObject := true }
      (("seq", .int k.toInt) :: ("type", .str event) :: ("event", .str method) :: ms) =
        Envelope.scanTree .debug (raised k method []) ms :=
  (scan_seq k).trans ((scan_type event).trans (scan_method (by decide) method))

theorem scan_responseHead (k n : Int64) (ok : Bool) (method : Option String) :
    Envelope.scanTree .debug { inObject := true } (responseHead k n ok method ++ ms) =
      Envelope.scanTree .debug (answered k n ok method none []) ms := by
  cases method with
  | none =>
    exact (scan_seq k).trans ((scan_type _).trans ((scan_requestSeq n).trans (scan_success ok)))
  | some name =>
    refine (scan_seq k).trans ((scan_type _).trans ((scan_requestSeq n).trans ?_))
    exact (scan_success ok).trans (scan_method (by decide) name)

end

section
variable {e : Envelope} {n : Int64} {q : Payload} (catalog : Catalog) (methods : MethodLookup)

theorem resolve_request {method : String} (hkind : e.kind = some request) (hseq : e.seq = some n)
    (hmethod : e.method = some method)
    (hq : catalog.resolveParams method (e.takeField "arguments") = .ok q) :
    (resolve catalog methods e none).result = .ok (.request (.number n) method q) := by
  have hres : resolveRequest catalog e = .ok (.request (.number n) method q) := by
    rw [resolveRequest, hseq, hmethod]
    dsimp only
    rw [hq]
  simp only [resolve, hkind]
  exact hres

theorem resolve_event {method : String} (hkind : e.kind = some event)
    (hmethod : e.method = some method)
    (hq : catalog.resolveParams method (e.takeField "body") = .ok q) :
    (resolve catalog methods e none).result = .ok (.notification method q) := by
  have hres : resolveEvent catalog e = .ok (.notification method q) := by
    rw [resolveEvent, hmethod]
    dsimp only
    rw [hq]
  simp only [resolve, hkind]
  exact hres

theorem resolve_result (hkind : e.kind = some response) (hseq : e.requestSeq = some n)
    (hsuccess : e.success = some true) :
    (resolve catalog methods e none).result =
      .ok (.response (some (.number n)) e.method (.result
        (catalog.resolveResult (e.method <|> methods (.number n)) (e.takeField "body")).1)) := by
  have hres : (resolveResponse catalog methods e).result =
      .ok (.response (some (.number n)) e.method (.result
        (catalog.resolveResult (e.method <|> methods (.number n)) (e.takeField "body")).1)) := by
    rw [resolveResponse, hseq]
    dsimp only
    rw [hsuccess]
    rfl
  simp only [resolve, hkind]
  exact hres

theorem resolve_error (hkind : e.kind = some response) (hseq : e.requestSeq = some n)
    (hsuccess : e.success = some false) :
    (resolve catalog methods e none).result =
      .ok (.response (some (.number n)) e.method
        (.error (errorOf e.message (e.takeField "body")))) := by
  have hres : (resolveResponse catalog methods e).result =
      .ok (.response (some (.number n)) e.method
        (.error (errorOf e.message (e.takeField "body")))) := by
    rw [resolveResponse, hseq]
    dsimp only
    rw [hsuccess]
    rfl
  simp only [resolve, hkind]
  exact hres

end

theorem int64?_of_int32 (code : Int32) :
    (Json.int code.toInt).int64? = some (Int64.ofInt code.toInt) := by
  have hlow := code.le_toInt
  have hhigh := code.toInt_lt
  refine if_pos ?_
  simp only [inInt64, Bool.and_eq_true, decide_eq_true_eq]
  omega

/-- The detail tells the whole error, data that is `null` included. -/
theorem detail?_writtenBody (err : ResponseError) :
    detail? (some (writtenBody err)) = some err := by
  obtain ⟨code, message, data⟩ := err
  have hcode := int64?_of_int32 code
  have herror : (writtenBody ⟨code, message, data⟩).member? "error" =
      some (ofMembers (writtenDetail ⟨code, message, data⟩)) := rfl
  have hid : (ofMembers (writtenDetail ⟨code, message, data⟩)).member? "id" =
      some (.int code.toInt) := by cases data <;> rfl
  have hformat : (ofMembers (writtenDetail ⟨code, message, data⟩)).member? "format" =
      some (.str message) := by cases data <;> rfl
  have hdata : (ofMembers (writtenDetail ⟨code, message, data⟩)).member? "data" = data := by
    cases data <;> rfl
  simp [detail?, herror, hid, hformat, hdata, hcode, str?]

section
variable {catalog : Catalog} {next k n : Int64} {methods : MethodLookup} {p : Payload}
  {ms : List (String × Json)} {name : Option String}

theorem recovers_request {method : String} (h : requestMembers (.number n) method p = .ok ms)
    (hr : p.Readable (catalog.paramsShape? method)) :
    (⟨.debug, catalog, next⟩ : Codec).Recovers methods ms (.request (.number n) method p) := by
  obtain ⟨j, hj, rfl⟩ := requestMembers_eq_ok h
  obtain ⟨q, hread, hq⟩ := Payload.resolveParams_written hr hj
  rw [← Envelope.takeField_memberOf (e := requested n method _) rfl] at hread
  have hres := resolve_request (n := n) catalog methods rfl rfl rfl hread
  constructor
  · rcases Payload.names_memberOf "arguments" j with hnames | hnames <;>
      simp [Envelope.Distinct, hnames]
  · refine ⟨_, _, ?_, hres, Message.request_beq (.number n) method hq⟩
    exact (scan_request n method).trans (Envelope.scanTree_memberOf (by decide) j)

theorem recovers_event {method : String} (h : eventMembers k method p = .ok ms)
    (hr : p.Readable (catalog.paramsShape? method)) :
    (⟨.debug, catalog, next⟩ : Codec).Recovers methods ms (.notification method p) := by
  obtain ⟨j, hj, rfl⟩ := eventMembers_eq_ok h
  obtain ⟨q, hread, hq⟩ := Payload.resolveParams_written hr hj
  rw [← Envelope.takeField_memberOf (e := raised k method _) rfl] at hread
  have hres := resolve_event catalog methods rfl rfl hread
  constructor
  · rcases Payload.names_memberOf "body" j with hnames | hnames <;>
      simp [Envelope.Distinct, hnames]
  · refine ⟨_, _, ?_, hres, Message.notification_beq method hq⟩
    exact (scan_event k method).trans (Envelope.scanTree_memberOf (by decide) j)

theorem recovers_result (h : responseMembers k n name (.result p) = .ok ms)
    (hr : p.Readable (catalog.resultShape? (name <|> methods (.number n)))) :
    (⟨.debug, catalog, next⟩ : Codec).Recovers methods ms
      (.response (some (.number n)) name (.result p)) := by
  obtain ⟨ps, hps, rfl⟩ := responseMembers_eq_ok h
  obtain ⟨j, hj, rfl⟩ := Payload.member_eq_ok hps
  have hq := Payload.resolveResult_written hr hj
  rw [← Envelope.takeField_memberOf (e := answered k n true name none _) rfl] at hq
  have hres := resolve_result catalog methods
    (e := answered k n true name none (Payload.memberOf "body" j)) rfl rfl rfl
  constructor
  · rcases Payload.names_memberOf "body" j with hnames | hnames <;> cases name <;>
      simp [Envelope.Distinct, responseHead, hnames]
  · refine ⟨_, _, ?_, hres, Message.result_beq (some (.number n)) name hq⟩
    exact (scan_responseHead k n true name).trans (Envelope.scanTree_memberOf (by decide) j)

theorem recovers_error {err : ResponseError} (h : responseMembers k n name (.error err) = .ok ms) :
    (⟨.debug, catalog, next⟩ : Codec).Recovers methods ms
      (.response (some (.number n)) name (.error err)) := by
  obtain ⟨ps, hps, rfl⟩ := responseMembers_eq_ok h
  obtain rfl := Except.ok.inj ((outcomeMembers_error err).symm.trans hps)
  have hres := resolve_error catalog methods
    (e := answered k n false name (some err.message) [("body", writtenBody err)]) rfl rfl rfl
  have htake : (answered k n false name (some err.message) [("body", writtenBody err)]).takeField
      "body" = some (writtenBody err) := Envelope.takeField_eq _ _
  rw [htake, errorOf, detail?_writtenBody] at hres
  constructor
  · cases name <;> simp [Envelope.Distinct, responseHead]
  · refine ⟨_, _, ?_, hres, Message.error_beq (some (.number n)) name err⟩
    refine (scan_responseHead k n false name).trans ((scan_message err.message).trans ?_)
    exact Envelope.scanTree_field (by decide)

end
end Debug

namespace Codec
open Json

/-- A message under a number is read back from the text that it is encoded to, whatever the next
sequence number is. -/
theorem debug_round_trip (c : Codec) (methods : MethodLookup) (m : Message) (text : String)
    (hdebug : c.dialect = .debug) (htext : (c.encodeText m).1 = .ok text)
    (hplain : ∀ v, (c.encode m).1 = .ok v → Plain maxDepth v) (hnumber : m.Numbered)
    (hread : m.Readable c.catalog (m.method? <|> (m.answers? >>= methods))) :
    ∃ m', ((c.encodeText m).2.decodeText methods text).result = .ok m' ∧ (m' == m) = true := by
  obtain ⟨dialect, catalog, next⟩ := c
  obtain rfl : dialect = .debug := hdebug
  obtain ⟨v, hv, rfl⟩ := encodeText_eq_ok htext
  have hp := hplain v hv
  rw [decodeText_encodeText]
  cases m with
  | request id method params =>
    obtain ⟨n, rfl⟩ := hnumber
    obtain ⟨ms, hms, rfl⟩ := Steps.map_eq_ok.mp hv
    exact (Debug.recovers_request hms hread).decodeText hp
  | notification method params =>
    obtain ⟨ms, hms, rfl⟩ := Steps.map_eq_ok.mp hv
    exact (Debug.recovers_event hms hread).decodeText hp
  | response id method outcome =>
    obtain ⟨n, rfl⟩ := hnumber
    obtain ⟨ms, hms, rfl⟩ := Steps.map_eq_ok.mp hv
    cases outcome with
    | result p => exact (Debug.recovers_result hms hread).decodeText hp
    | error err => exact (Debug.recovers_error hms).decodeText hp

theorem debug_round_trip_null_data :
    let c : Codec := ⟨.debug, ⟨[]⟩, -3⟩
    let m : Message := .response (some (.number 7)) (some "go") (.error ⟨-5, "no", some .null⟩)
    let body := "\x7b\"error\":\x7b\"data\":null,\"format\":\"no\",\"id\":-5\x7d\x7d"
    let text := "\x7b\"body\":" ++ body ++ ",\"command\":\"go\",\"message\":\"no\"," ++
      "\"request_seq\":7,\"seq\":-3,\"success\":false,\"type\":\"response\"\x7d"
    (c.encodeText m).1 = .ok text ∧ m.Numbered ∧
      ∃ m', ((c.encodeText m).2.decodeText noMethods text).result = .ok m' ∧ (m' == m) = true := by
  intro c m body text
  let error := Json.obj [("data", .null), ("format", .str "no"), ("id", .int (-5))]
  let tree := Json.obj [("body", .obj [("error", error)]), ("command", .str "go"),
    ("message", .str "no"), ("request_seq", .int 7), ("seq", .int (-3)), ("success", .bool false),
    ("type", .str "response")]
  have hv : (c.encode m).1 = .ok tree := by cbv
  have hprint : tree.text = text := by decide +kernel
  have htext : (c.encodeText m).1 = .ok text := by
    change (c.encode m).1.map Json.text = _
    rw [hv, ← hprint]
    rfl
  have herror : Plain (124 + 1) error :=
    .obj (by decide) (by simp [Plain.null, Plain.str, Plain.int])
  have hbody : Plain (125 + 1) (.obj [("error", error)]) := .obj (by decide) (by simpa using herror)
  have hplain : ∀ v, (c.encode m).1 = .ok v → Plain (126 + 1) v := by
    intro v h
    obtain rfl := Except.ok.inj (hv.symm.trans h)
    exact .obj (by decide) (by simp [hbody, Plain.str, Plain.int, Plain.bool])
  have hnumber : m.Numbered := ⟨7, rfl⟩
  exact ⟨htext, hnumber, debug_round_trip c noMethods m text rfl htext hplain hnumber trivial⟩

end Codec
end RpcPeer
