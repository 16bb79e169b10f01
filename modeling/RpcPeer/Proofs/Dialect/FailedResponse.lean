import Mathlib
import RpcPeer.Proofs.Dialect.DebugGrammar

/-! Failed responses of the debug dialect and the codes of their errors. -/
namespace RpcPeer
open Json

/-- An integer of this kind. -/
def IntKind.Holds (kind : IntKind) (n : Int) : Prop := kind.least ≤ n ∧ n ≤ kind.greatest

theorem toInt_narrowed_eq_iff (k : Int) :
    (Int32.ofInt k).toInt = k ↔ IntKind.int32.Holds k := by
  constructor
  · intro h
    have hge := Int32.le_toInt (Int32.ofInt k)
    have hlt := Int32.toInt_lt (Int32.ofInt k)
    rw [h] at hge hlt
    simp only [IntKind.Holds, IntKind.least, IntKind.greatest]
    omega
  · intro h
    simp only [IntKind.Holds, IntKind.least, IntKind.greatest] at h
    have hge : -2 ^ 31 ≤ k := by omega
    have hlt : k < 2 ^ 31 := by omega
    exact Int32.toInt_ofInt_of_le hge hlt

namespace Debug

/-- The members are those of a failed response to the request `n`. -/
structure Failure (ms : List (String × Json)) (n : Int64) : Prop where
  fits : ∀ m ∈ ms, Envelope.Fits .debug m
  kind : Envelope.lastOf ms "type" = some (.str response)
  number : Envelope.lastOf ms "request_seq" = some (.int n.toInt)
  failed : Envelope.lastOf ms "success" = some (.bool false)

/-- The text that stands beside the body. -/
def messageOf (ms : List (String × Json)) : Option String :=
  (Envelope.lastOf ms "message").bind Json.str?

/-- The body, unless it is `null`. -/
def bodyOf (ms : List (String × Json)) : Option Json := present (ms.lookup "body")

/-- The body has an error with the integer `k` for its code and a text. -/
def Details (body : Option Json) (k : Int) (format : String) (data : Option Json) : Prop :=
  ∃ b err, body = some b ∧ b.member? "error" = some err ∧ err.member? "id" = some (.int k) ∧
    err.member? "format" = some (.str format) ∧ err.member? "data" = data

section
variable {ms : List (String × Json)} {n : Int64} {e : Envelope} {body : Option Json}
  {message : Option String} {k : Int} {format : String} {data : Option Json}

theorem errorOf_of_details (h : Details body k format data) (hk : inInt64 k = true) :
    errorOf message body = ⟨Int32.ofInt k, format, data⟩ := by
  obtain ⟨b, err, rfl, herr, hid, hformat, rfl⟩ := h
  have hcode : (Json.int k).int64? = some (Int64.ofInt k) := if_pos hk
  have hdetail : detail? (some b) = some ⟨Int32.ofInt k, format, err.member? "data"⟩ := by
    simp [detail?, herr, hid, hformat, hcode, Json.str?]
  rw [errorOf, hdetail]

theorem details_of_detail? {err : ResponseError} (h : detail? body = some err) :
    ∃ k format data, Details body k format data ∧ inInt64 k = true := by
  unfold detail? at h
  simp only [Option.bind_eq_bind, Option.bind_eq_some_iff] at h
  obtain ⟨b, hb, error, herror, id, hid, code, hcode, text, htext, format, hformat, -⟩ := h
  obtain ⟨k, rfl, hk⟩ : ∃ k, id = .int k ∧ inInt64 k = true := by
    cases id with
    | int k => exact ⟨k, rfl, by by_contra hne; simp [int64?, hne] at hcode⟩
    | _ => cases hcode
  obtain rfl : text = .str format := by
    cases text with
    | str s =>
      cases hformat
      rfl
    | _ => cases hformat
  exact ⟨k, format, _, ⟨b, error, hb, herror, hid, htext, rfl⟩, hk⟩

theorem errorOf_of_no_details
    (h : ∀ k format data, Details body k format data → inInt64 k = false) :
    errorOf message body =
      ⟨ErrorCode.unknownErrorCode.code, message.getD ErrorCode.unknownErrorCode.message, body⟩ := by
  cases hdetail : detail? body with
  | none => rw [errorOf, hdetail]
  | some err =>
    obtain ⟨k, format, data, hdetails, hk⟩ := details_of_detail? hdetail
    exact absurd hk (by simp [h k format data hdetails])

theorem Failure.message_eq (h : Failure ms n) (he : e.message = none) :
    (Envelope.enterAll .debug e ms).message = messageOf ms := by
  have hshown : (Envelope.enterAll .debug e ms).message.map .str =
      present (Envelope.lastOf ms "message") :=
    Slot.Shows.message.eq_present_lastOf (by decide) (Envelope.alone_of_slotNames rfl) h.fits he
  have hmessage : messageOf ms = (present (Envelope.lastOf ms "message")).bind Json.str? := by
    rw [messageOf]
    rcases present_cases (Envelope.lastOf ms "message") with ⟨hnone, h | h⟩ | ⟨v, hsome, h⟩
    · rw [hnone, h]
    · rw [hnone, h]
      rfl
    · rw [hsome, h]
  rw [hmessage, ← hshown]
  cases (Envelope.enterAll .debug e ms).message <;> rfl

theorem Failure.resolve_eq (h : Failure ms n) (catalog : Catalog) (methods : MethodLookup) :
    (resolve catalog methods (Envelope.enterAll .debug { inObject := true } ms) none).result =
      .ok (.response (some (.number n)) (Envelope.enterAll .debug { inObject := true } ms).method
        (.error (errorOf (messageOf ms) (bodyOf ms)))) := by
  let e := Envelope.enterAll .debug { inObject := true } ms
  -- of a scalar the last member counts, of the body the first
  have hkind : e.kind = some response := by
    have hshown := Slot.Shows.kind.eq_present_lastOf (e := { inObject := true }) (by decide)
      (Envelope.alone_of_slotNames rfl) h.fits rfl
    rw [h.kind] at hshown
    obtain ⟨s, hs, heq⟩ := Option.map_eq_some_iff.mp hshown
    cases heq
    exact hs
  have hnumber : e.requestSeq = some n := by
    have hshown := Slot.Shows.requestSeq.eq_present_lastOf (e := { inObject := true }) (by decide)
      (Envelope.alone_of_slotNames rfl) h.fits rfl
    rw [h.number] at hshown
    obtain ⟨m, hm, heq⟩ := Option.map_eq_some_iff.mp hshown
    rw [← Int64.toInt_inj.mp (Json.int.inj heq)]
    exact hm
  have hfailed : e.success = some false := by
    have hshown := Slot.Shows.success.eq_present_lastOf (e := { inObject := true }) (by decide)
      (Envelope.alone_of_slotNames rfl) h.fits rfl
    rw [h.failed] at hshown
    obtain ⟨b, hb, heq⟩ := Option.map_eq_some_iff.mp hshown
    cases heq
    exact hb
  have hmessage : e.message = messageOf ms := h.message_eq rfl
  have hbody : e.takeField "body" = bodyOf ms := Envelope.takeField_enterAll (by decide) rfl
  have hrequest : ¬ (response == request) = true := by decide
  have hevent : ¬ (response == event) = true := by decide
  change (resolve catalog methods e none).result = _
  simp only [resolve, hkind, if_neg hrequest, if_neg hevent, beq_self_eq_true, if_true,
    resolveResponse, hnumber, hfailed, hmessage, hbody]
  rfl

end

end Debug

namespace Codec

/-- A failed response, read from a text or from a tree, with an error object in its body or without
one. An integer of 64 bits for the code is cut to its low half, so that the error has this code
exactly if it is one of 32 bits; where there is no such integer or no text beside it, the error is
an unknown one with the message of the envelope and the whole body. -/
theorem decode_failed_response (catalog : Catalog) (next : Int64) (methods : MethodLookup)
    (ms : List (String × Json)) (n : Int64) (h : Debug.Failure ms n) :
    ∃ method e, let m : Message := .response (some (.number n)) method (.error e)
      (∀ text, parseMembers text = .ok ms →
        ((⟨.debug, catalog, next⟩ : Codec).decodeText methods text).result = .ok m) ∧
      ((⟨.debug, catalog, next⟩ : Codec).decodeValue methods (.obj ms)).result = .ok m ∧
      (∀ k format data, Debug.Details (Debug.bodyOf ms) k format data → inInt64 k = true →
        e.message = format ∧ e.data = data ∧ e.code.toInt = k.bmod (2 ^ 32) ∧
          (e.code.toInt = k ↔ IntKind.int32.Holds k)) ∧
      ((∀ k format data, Debug.Details (Debug.bodyOf ms) k format data → inInt64 k = false) →
        e = ⟨ErrorCode.unknownErrorCode.code,
          (Debug.messageOf ms).getD ErrorCode.unknownErrorCode.message, Debug.bodyOf ms⟩) := by
  let c : Codec := ⟨.debug, catalog, next⟩
  have hscan : Envelope.scanTree .debug { inObject := true } ms =
      (Envelope.enterAll .debug { inObject := true } ms, none) := Envelope.scanValue_of_fits h.fits
  have htree : (c.decodeValue methods (.obj ms)).result =
      .ok (.response (some (.number n)) (Envelope.enterAll .debug { inObject := true } ms).method
        (.error (Debug.errorOf (Debug.messageOf ms) (Debug.bodyOf ms)))) := by
    rw [decodeValue, Envelope.scanValue_of_fits h.fits]
    exact h.resolve_eq catalog methods
  refine ⟨_, _, fun text htext => ?_, htree, fun k format data hdetails hk => ?_, fun hnone => ?_⟩
  · rw [decodeText_of_parseMembers htext, hscan]
    exact h.resolve_eq catalog methods
  · rw [Debug.errorOf_of_details hdetails hk]
    exact ⟨rfl, rfl, Int32.toInt_ofInt, toInt_narrowed_eq_iff k⟩
  · exact Debug.errorOf_of_no_details hnone

theorem decode_failed_response_known_code :
    let c : Codec := ⟨.debug, ⟨[]⟩, 1⟩
    let err := obj [("data", null), ("format", str "late"), ("id", int (-7))]
    let ms := [("success", bool false), ("message", str "no"), ("request_seq", int 3),
      ("body", obj [("error", err)]), ("type", str "response")]
    Debug.Failure ms 3 ∧ Debug.Details (Debug.bodyOf ms) (-7) "late" (some null) ∧
      ∃ method e, (c.decodeValue noMethods (obj ms)).result =
          .ok (.response (some (.number 3)) method (.error e)) ∧
        e.code.toInt = -7 ∧ e.message = "late" := by
  intro c err ms
  have hscan : (Envelope.scanTree .debug { inObject := true } ms).2 = none := rfl
  have hfailure : Debug.Failure ms 3 := ⟨Envelope.fits_of_scanTree hscan, rfl, rfl, rfl⟩
  have hdetails : Debug.Details (Debug.bodyOf ms) (-7) "late" (some null) :=
    ⟨_, err, rfl, rfl, rfl, rfl, rfl⟩
  obtain ⟨method, e, -, htree, hall, -⟩ :=
    decode_failed_response ⟨[]⟩ 1 noMethods ms 3 hfailure
  obtain ⟨hmessage, -, -, hcode⟩ := hall _ _ _ hdetails rfl
  have hsmall : IntKind.int32.Holds (-7) := by
    simp [IntKind.Holds, IntKind.least, IntKind.greatest]
  exact ⟨hfailure, hdetails, method, e, htree, hcode.mpr hsmall, hmessage⟩

/-- The code `2 ^ 32 - 32601`, which no error can have, is taken for that of a method that was not
found. -/
theorem decodeText_foreign_code :
    let c : Codec := ⟨.debug, ⟨[]⟩, 1⟩
    let err := obj [("format", str "x"), ("id", int 4294934695)]
    let ms := [("type", str "response"), ("request_seq", int 3), ("success", bool false),
      ("body", obj [("error", err)])]
    let text := "\x7b\"type\":\"response\",\"request_seq\":3,\"success\":false," ++
      "\"body\":\x7b\"error\":\x7b\"id\":4294934695,\"format\":\"x\"\x7d\x7d\x7d"
    parseMembers text = .ok ms ∧ Debug.Failure ms 3 ∧
      Debug.Details (Debug.bodyOf ms) 4294934695 "x" none ∧ ¬ IntKind.int32.Holds 4294934695 ∧
      (c.decodeText noMethods text).result = .ok (.response (some (.number 3)) none
        (.error ⟨ErrorCode.methodNotFound.code, "x", none⟩)) := by
  intro c err ms text
  have hms : parseMembers text = .ok ms := by
    set_option maxRecDepth 1000 in
    cbv
  have hscan : (Envelope.scanTree .debug { inObject := true } ms).2 = none := rfl
  have hfailure : Debug.Failure ms 3 := ⟨Envelope.fits_of_scanTree hscan, rfl, rfl, rfl⟩
  have hlarge : ¬ IntKind.int32.Holds 4294934695 := by
    simp [IntKind.Holds, IntKind.least, IntKind.greatest]
  refine ⟨hms, hfailure, ⟨_, err, rfl, rfl, rfl, rfl, rfl⟩, hlarge, ?_⟩
  rw [decodeText_of_parseMembers hms]
  rfl

end Codec
end RpcPeer
