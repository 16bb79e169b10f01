import RpcPeer.Message.Basic
import RpcPeer.Proofs.Json.Tree
import RpcPeer.Proofs.Steps

/-! The JSON forms of ids and errors are read back. -/
namespace RpcPeer

theorem Json.inInt64_toInt (n : Int64) : Json.inInt64 n.toInt = true := by
  have hlow := n.le_toInt
  have hhigh := n.toInt_lt
  simp only [Json.inInt64, Bool.and_eq_true, decide_eq_true_eq]
  omega

theorem Json.exists_toInt {n : Int} (h : inInt64 n = true) : ∃ k : Int64, k.toInt = n := by
  simp only [inInt64, Bool.and_eq_true, decide_eq_true_eq] at h
  exact ⟨Int64.ofInt n, Int64.toInt_ofInt_of_le (by omega) (by omega)⟩

theorem MessageId.ofDatum?_toDatum (id : MessageId) : ofDatum? id.toDatum = some id := by
  cases id with
  | number n => rw [toDatum, ofDatum?, Int64.ofInt_toInt]
  | text s => rfl

theorem Shape.decodeId_toJson (id : MessageId) : Shape.decodeId id.toJson = .ok id.toDatum := by
  cases id with
  | number n => exact if_pos (Json.inInt64_toInt n)
  | text s => rfl

theorem Shape.decodeId_eq_ok {v : Json} {d : Datum} (h : decodeId v = .ok d) :
    ∃ id : MessageId, v = id.toJson ∧ d = id.toDatum := by
  unfold decodeId at h
  split at h
  next n =>
    split at h
    next hn =>
      cases h
      obtain ⟨k, rfl⟩ := Json.exists_toInt hn
      exact ⟨.number k, rfl, rfl⟩
    next => cases h
  next s =>
    cases h
    exact ⟨.text s, rfl, rfl⟩
  next => cases h

theorem Shape.decodeInt_int64_eq_ok {v : Json} {d : Datum} (h : decodeInt .int64 v = .ok d) :
    ∃ k : Int64, v = .int k.toInt ∧ d = .int k.toInt := by
  unfold decodeInt at h
  split at h
  next n =>
    split at h
    next hn =>
      cases h
      obtain ⟨k, rfl⟩ := Json.exists_toInt hn
      exact ⟨k, rfl, rfl⟩
    next => cases h
  next => cases h

theorem Shape.decode_text_eq_ok {v : Json} {d : Datum} (h : decode text v = .ok d) :
    ∃ s, v = .str s ∧ d = .text s := by
  cases v with
  | str s =>
    cases h
    exact ⟨s, rfl, rfl⟩
  | _ => cases h

theorem Shape.decodeInt_of_mem {k : IntKind} {n : Int} (hlow : k.least ≤ n)
    (hhigh : n ≤ k.greatest) : Shape.decodeInt k (.int n) = .ok (.int n) := by
  have h : (k.least ≤ n && n ≤ k.greatest) = true := by simp [hlow, hhigh]
  rw [decodeInt, if_pos h]

theorem Shape.decodeInt_int64 (n : Int64) :
    Shape.decodeInt .int64 (.int n.toInt) = .ok (.int n.toInt) :=
  decodeInt_of_mem n.le_toInt (Int.le_of_lt_add_one n.toInt_lt)

theorem Shape.decodeInt_int32 (n : Int32) :
    Shape.decodeInt .int32 (.int n.toInt) = .ok (.int n.toInt) :=
  decodeInt_of_mem n.le_toInt (Int.le_of_lt_add_one n.toInt_lt)

theorem Shape.decodeMembers_cons {fields : List (FieldReader (Json → Except DataError Datum))}
    {f : FieldReader (Json → Except DataError Datum)} {name : String} {v : Json} {d : Datum}
    {ms : List (String × Json)} {ds : List (String × Datum)}
    (hfind : fields.find? (·.name == name) = some f) (hread : f.read v = .ok d)
    (hrest : decodeMembers fields ms = .ok ds) :
    decodeMembers fields ((name, v) :: ms) = .ok ((name, d) :: ds) := by
  simp only [decodeMembers, hfind, hread, hrest, Steps.ok_bind, Steps.pure_eq]

theorem Shape.decodeRecord_obj {label : TypeLabel} {ms : List (String × Json)}
    {fields : List (FieldReader (Json → Except DataError Datum))} {read ds : List (String × Datum)}
    (hread : decodeMembers fields ms = .ok read) (hds : assemble read fields = .ok ds) :
    decodeRecord label fields (.obj ms) = .ok (.record ds) := by
  simp only [decodeRecord, hread, hds, Steps.ok_bind, Steps.pure_eq]

namespace ResponseError

theorem beq_refl (e : ResponseError) : (e == e) = true := by
  change same e e = true
  unfold same
  cases e.data with
  | none => simp
  | some v => simp

theorem ofDatum?_toDatum (e : ResponseError) : ofDatum? e.toDatum = some e := by
  obtain ⟨code, message, data⟩ := e
  have hcode := Int32.ofInt_toInt code
  cases data with
  | none =>
    change some (ResponseError.mk (Int32.ofInt code.toInt) message none) = _
    rw [hcode]
  | some v =>
    change some (ResponseError.mk (Int32.ofInt code.toInt) message (some v)) = _
    rw [hcode]

/-- What the data of an error is read as. -/
def readData (data : Option Json) : Datum :=
  match data with
  | none | some .null => .absent
  | some v => .json v

theorem decode_shape_toJson (e : ResponseError) :
    Shape.decode shape e.toJson =
      .ok (.record [("code", .int e.code.toInt), ("message", .text e.message),
        ("data", readData e.data)]) := by
  obtain ⟨code, message, data⟩ := e
  have hcode := Shape.decodeInt_int32 code
  cases data with
  | none =>
    have hjson : toJson ⟨code, message, none⟩ =
      .obj [("code", .int code.toInt), ("message", .str message)] := rfl
    rw [hjson]
    exact Shape.decodeRecord_obj
      (Shape.decodeMembers_cons rfl hcode (Shape.decodeMembers_cons rfl rfl rfl)) rfl
  | some v =>
    have hjson : toJson ⟨code, message, some v⟩ =
      .obj [("code", .int code.toInt), ("data", v), ("message", .str message)] := rfl
    have hdata : Shape.decode (.option .json) v = .ok (readData (some v)) := by cases v <;> rfl
    rw [hjson]
    exact Shape.decodeRecord_obj (Shape.decodeMembers_cons rfl hcode
      (Shape.decodeMembers_cons rfl hdata (Shape.decodeMembers_cons rfl rfl rfl))) rfl

theorem exists_decode_toJson (e : ResponseError) : ∃ e', decode e.toJson = .ok e' := by
  unfold decode
  rw [decode_shape_toJson e]
  exact ⟨_, rfl⟩

/-- An error is read back from its JSON form, unless its data is `null`. -/
theorem decode_toJson (e : ResponseError) (h : e.data ≠ some .null) : decode e.toJson = .ok e := by
  have hdatum : Datum.record [("code", .int e.code.toInt), ("message", .text e.message),
      ("data", readData e.data)] = e.toDatum := by
    obtain ⟨code, message, data⟩ := e
    rcases data with _ | (_ | _)
    · rfl
    · exact absurd rfl h
    all_goals rfl
  unfold decode
  rw [decode_shape_toJson e, hdatum]
  change Except.ok ((ofDatum? e.toDatum).getD (ofCode .unknownErrorCode)) = _
  rw [ofDatum?_toDatum]
  rfl

end ResponseError
end RpcPeer
