import RpcPeer.Dialect.Codec
import RpcPeer.Proofs.Message.Forms

/-! The tree that a payload is written as, and what it is resolved to. -/
namespace RpcPeer
open Steps

/-- The tree of a payload that counts: `null` is no tree at all. -/
def present (j : Option Json) : Option Json := j.filter fun v => !v.isNull

theorem present_present (j : Option Json) : present (present j) = present j := by
  cases j with
  | none => rfl
  | some v => cases v <;> rfl

theorem present_cases (j : Option Json) :
    (present j = none ∧ (j = none ∨ j = some .null)) ∨ ∃ v, present j = some v ∧ j = some v := by
  cases j with
  | none => exact .inl ⟨rfl, .inl rfl⟩
  | some v =>
    cases v with
    | null => exact .inl ⟨rfl, .inr rfl⟩
    | _ => exact .inr ⟨_, rfl, rfl⟩

theorem Envelope.takeField_eq (e : Envelope) (name : String) :
    e.takeField name = present (e.fields.lookup name) := by
  unfold takeField
  cases e.fields.lookup name with
  | none => rfl
  | some v => cases v <;> rfl

/-- The shape of the parameters of a method. -/
def Catalog.paramsShape? (c : Catalog) (method : String) : Option Shape :=
  (c.find? method).map (·.params)

namespace Payload

/-- Absent or `null`, of no known shape, or decoded from its JSON form by the shape into an equal
payload. -/
def Readable (shape? : Option Shape) (p : Payload) : Prop :=
  p.toJson = .ok none ∨ p.toJson = .ok (some .null) ∨ shape? = none ∨
    ∃ s v q, shape? = some s ∧ p.toJson = .ok (some v) ∧ s.resolve v = .ok q ∧ (q == p) = true

section
variable {p : Payload} {j : Option Json} {v : Json}

theorem isNull_of_present (h : p.toJson = .ok (some v)) (hv : present (some v) = none) :
    p.isNull = true := by
  rcases present_cases (some v) with ⟨-, hnone | hnull⟩ | ⟨w, hw, -⟩
  · cases hnone
  · rw [isNull, h, hnull]
    rfl
  · cases hv.symm.trans hw

theorem absent_beq (h : p.toJson = .ok j) (hj : present j = none) : (absent == p) = true := by
  change same absent p = true
  cases p with
  | absent => rfl
  | json v =>
    obtain rfl : some v = j := Except.ok.inj h
    exact isNull_of_present h hj
  | typed name d =>
    obtain ⟨v, -, rfl⟩ := map_eq_ok.mp h
    exact isNull_of_present h hj

theorem json_beq (h : p.toJson = .ok (some v)) : (json v == p) = true := by
  change same (json v) p = true
  cases p with
  | absent => cases h
  | json w =>
    obtain rfl : w = v := Option.some.inj (Except.ok.inj h)
    exact beq_self_eq_true w
  | typed name d =>
    simp only [same, h]
    exact beq_self_eq_true v

variable {shape? : Option Shape}

/-- A tree that counts is resolved to the payload that it was written for. -/
theorem Readable.resolve (hr : Readable shape? p) (h : p.toJson = .ok j) (hj : present j = some v) :
    shape? = none ∧ (json v == p) = true ∨
      ∃ s q, shape? = some s ∧ s.resolve v = .ok q ∧ (q == p) = true := by
  have hw : j = some v := by
    rcases present_cases j with ⟨hnone, -⟩ | ⟨w, hw, hj'⟩
    · cases hnone.symm.trans hj
    · rw [hj', ← hw, hj]
  rcases hr with habs | hnull | hnone | ⟨s, w, q, hs, hw', hq, heq⟩
  · rw [habs, hw] at h
    cases h
  · rw [hnull] at h
    obtain rfl : some .null = j := Except.ok.inj h
    cases hj
  · exact .inl ⟨hnone, json_beq (hw ▸ h)⟩
  · rw [hw'] at h
    obtain rfl : w = v := Option.some.inj ((Except.ok.inj h).trans hw)
    exact .inr ⟨s, q, hs, hq, heq⟩

theorem resolveParams_written {c : Catalog} {method : String}
    (hr : Readable (c.paramsShape? method) p) (h : p.toJson = .ok j) :
    ∃ q, c.resolveParams method (present j) = .ok q ∧ (q == p) = true := by
  cases hj : present j with
  | none => exact ⟨absent, rfl, absent_beq h hj⟩
  | some v =>
    rcases hr.resolve h hj with ⟨hs, hq⟩ | ⟨s, q, hs, hq, heq⟩
    · have hfind : c.find? method = none := Option.map_eq_none_iff.mp hs
      refine ⟨json v, ?_, hq⟩
      rw [Catalog.resolveParams, hfind]
    · obtain ⟨entry, hfind, rfl⟩ := Option.map_eq_some_iff.mp hs
      refine ⟨q, ?_, heq⟩
      rw [Catalog.resolveParams, hfind]
      exact hq

theorem resolveResult_written {c : Catalog} {method : Option String}
    (hr : Readable (c.resultShape? method) p) (h : p.toJson = .ok j) :
    ((c.resolveResult method (present j)).1 == p) = true := by
  cases hj : present j with
  | none => exact absent_beq h hj
  | some v =>
    rcases hr.resolve h hj with ⟨hs, hq⟩ | ⟨s, q, hs, hq, heq⟩
    · rw [Catalog.resolveResult, hs]
      exact hq
    · rw [Catalog.resolveResult, hs]
      dsimp only
      rw [hq]
      exact heq

/-- The member that a tree is written as, if it is written. -/
def memberOf (name : String) (j : Option Json) : List (String × Json) :=
  (present j).toList.map fun v => (name, v)

theorem written_eq_ok {what : String} : p.written what = .ok j ↔ p.toJson = .ok j := by
  unfold written
  cases p.toJson <;> simp [Except.mapError]

theorem member_eq_ok {name : String} {ms : List (String × Json)} (h : p.member name = .ok ms) :
    ∃ j, p.toJson = .ok j ∧ ms = memberOf name j := by
  obtain ⟨j, hj, h⟩ := bind_eq_ok.mp h
  refine ⟨j, written_eq_ok.mp hj, ?_⟩
  cases j with
  | none =>
    cases h
    rfl
  | some v => cases v <;> cases h <;> rfl

theorem lookup_memberOf (name : String) (j : Option Json) :
    (memberOf name j).lookup name = present j := by
  unfold memberOf
  cases present j with
  | none => rfl
  | some v => simp

end
end Payload

theorem Envelope.takeField_memberOf {e : Envelope} {name : String} {j : Option Json}
    (h : e.fields = Payload.memberOf name j) : e.takeField name = present j := by
  rw [takeField_eq, h, Payload.lookup_memberOf, present_present]

namespace Message

/-- Its payload is readable by the shape of its method, a result by that of the method that is
answered. -/
def Readable (catalog : Catalog) (answered : Option String) : Message → Prop
  | request _ method params | notification method params =>
    params.Readable (catalog.paramsShape? method)
  | response _ _ (.result p) => p.Readable (catalog.resultShape? answered)
  | response _ _ (.error _) => True

def error? : Message → Option ResponseError
  | response _ _ (.error e) => some e
  | _ => none

/-- The id of the request that is answered. -/
def answers? : Message → Option MessageId
  | response id _ _ => id
  | _ => none

/-- Its id is a number: a request and a response have one, a notification has none. -/
def Numbered : Message → Prop
  | request id _ _ => ∃ n, id = .number n
  | notification _ _ => True
  | response id _ _ => ∃ n, id = some (.number n)

def withoutMethod : Message → Message
  | response id _ outcome => response id none outcome
  | m => m

variable {p q : Payload}

theorem request_beq (id : MessageId) (method : String) (h : (q == p) = true) :
    (request id method q == request id method p) = true := by
  change (id == id && method == method && q == p) = true
  simp [h]

theorem notification_beq (method : String) (h : (q == p) = true) :
    (notification method q == notification method p) = true := by
  change (method == method && q == p) = true
  simp [h]

theorem result_beq (id : Option MessageId) (method : Option String) (h : (q == p) = true) :
    (response id method (.result q) == response id method (.result p)) = true := by
  change (id == id && method == method && q == p) = true
  simp [h]

theorem error_beq (id : Option MessageId) (method : Option String) (e : ResponseError) :
    (response id method (.error e) == response id method (.error e)) = true := by
  change (id == id && method == method && e == e) = true
  simp [ResponseError.beq_refl]

end Message
end RpcPeer
