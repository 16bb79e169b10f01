import RpcPeer.Proofs.Dialect.Payloads
import RpcPeer.Proofs.Shape.Equality

/-! Equality of payloads: by their type where they have one, or by the wire. -/
namespace RpcPeer
open Steps

/-- The types of payloads, each known by its name: how its values compare, and the tree that a value
is written as. -/
structure PayloadTypes where
  eq (type : String) : Datum → Datum → Bool
  write (type : String) : Datum → Except DataError Json

namespace PayloadTypes

/-- The types that payloads have here. -/
def declared : PayloadTypes := ⟨fun _ d e => d == e, fun _ d => d.toJson⟩

def toJson (T : PayloadTypes) : Payload → Except DataError (Option Json)
  | .absent => .ok none
  | .json v => .ok (some v)
  | .typed s d => (T.write s d).map some

def isNull (T : PayloadTypes) (p : Payload) : Bool :=
  match T.toJson p with
  | .ok (some v) => v.isNull
  | _ => false

def same (T : PayloadTypes) : Payload → Payload → Bool
  | .absent, .absent => true
  | .json v, .json w => v == w
  | .typed s d, .typed t e => s == t && T.eq s d e
  | .absent, p | p, .absent => T.isNull p
  | p, q =>
    match T.toJson p, T.toJson q with
    | .ok (some v), .ok (some w) => v == w
    | _, _ => false

/-- What is on the wire: the tree of a payload, where `null` is none. A payload that cannot be
written has no wire form. -/
def wireForm (T : PayloadTypes) (p : Payload) : Except DataError (Option Json) :=
  (T.toJson p).map present

/-- Both payloads can be written, and they look the same on the wire. -/
def SameWire (T : PayloadTypes) (p q : Payload) : Prop :=
  ∃ j k, T.wireForm p = .ok j ∧ T.wireForm q = .ok k ∧ (j == k) = true

/-- Equality within a type goes both ways, and the trees of equal values are equal. -/
structure Lawful (T : PayloadTypes) : Prop where
  symm (s : String) (d e : Datum) : T.eq s d e = T.eq s e d
  json (s : String) (d e : Datum) (v w : Json) (h : T.eq s d e = true) (hd : T.write s d = .ok v)
    (he : T.write s e = .ok w) : (v == w) = true

/-- Equality within a type is an equivalence as well, and no value without a tree equals one with a
tree. -/
structure Equivalence (T : PayloadTypes) : Prop extends T.Lawful where
  trans (s : String) (a b c : Datum) (hab : T.eq s a b = true) (hbc : T.eq s b c = true) :
    T.eq s a c = true
  writes (s : String) (d e : Datum) (v : Json) (h : T.eq s d e = true) (hd : T.write s d = .ok v) :
    ∃ w, T.write s e = .ok w

variable {T : PayloadTypes}

theorem toJson_declared (p : Payload) : declared.toJson p = p.toJson := by cases p <;> rfl

theorem same_declared (p q : Payload) : declared.same p q = (p == q) := by
  have hnull : ∀ r : Payload, declared.isNull r = r.isNull := by
    intro r
    rw [isNull, toJson_declared]
    rfl
  change declared.same p q = Payload.same p q
  cases p <;> cases q <;> simp only [same, Payload.same, toJson_declared, hnull]
  all_goals rfl

/-- What equality and the wire form of payloads come to for the types here. -/
theorem declared_eq (p q : Payload) :
    declared.same p q = (p == q) ∧ declared.wireForm p = p.toJson.map present :=
  ⟨same_declared p q, by rw [wireForm, toJson_declared]⟩

theorem declared_equivalence : declared.Equivalence where
  symm _ _ _ := BEq.comm
  json _ d e v w h hd he := by
    have hform := Datum.toJson_of_beq h
    rw [show d.toJson = .ok v from hd, show e.toJson = .ok w from he] at hform
    exact (Json.beq_iff v w).mpr (Except.ok.inj hform)
  trans _ _ _ _ := BEq.trans
  writes _ d e v h hd := by
    have hform := Datum.toJson_of_beq h
    rw [show d.toJson = .ok v from hd] at hform
    obtain ⟨w, hw, -⟩ := map_eq_ok.mp hform.symm
    exact ⟨w, hw⟩

/-- Two payloads are not both typed, or there are two values to be compared. -/
theorem typed_cases (p q : Payload) :
    (p.isTyped && q.isTyped) = false ∨ ∃ s d t e, p = .typed s d ∧ q = .typed t e := by
  cases p with
  | absent | json => exact .inl rfl
  | typed s d =>
    cases q with
    | absent | json => exact .inl rfl
    | typed t e => exact .inr ⟨s, d, t, e, rfl, rfl⟩

theorem present_beq (v w : Json) : (present (some v) == present (some w)) = (v == w) := by
  cases v <;> cases w <;> rfl

theorem present_beq_none (v : Json) : (present (some v) == none) = v.isNull := by
  cases v <;> rfl

theorem none_beq_present (v : Json) : (none == present (some v)) = v.isNull := by
  cases v <;> rfl

instance : EquivBEq (Option Json) where
  rfl {j} := by
    cases j with
    | none => rfl
    | some v => exact beq_self_eq_true v
  symm {j k} h := by
    cases j with
    | none =>
      cases k with
      | none => rfl
      | some => cases h
    | some v =>
      cases k with
      | none => cases h
      | some w =>
        have hvw : (v == w) = true := h
        exact (BEq.symm hvw : (w == v) = true)
  trans {j k l} hjk hkl := by
    cases k with
    | none =>
      cases j with
      | none => exact hkl
      | some => cases hjk
    | some v =>
      cases j with
      | none => cases hjk
      | some u =>
        cases l with
        | none => cases hkl
        | some w =>
          have huv : (u == v) = true := hjk
          have hvw : (v == w) = true := hkl
          exact (BEq.trans huv hvw : (u == w) = true)

theorem wireForm_typed_eq_ok {s : String} {d : Datum} {j : Option Json} :
    T.wireForm (.typed s d) = .ok j ↔ ∃ v, T.write s d = .ok v ∧ present (some v) = j := by
  simp only [wireForm, toJson, map_eq_ok]
  constructor
  · rintro ⟨_, ⟨v, hv, rfl⟩, hj⟩
    exact ⟨v, hv, hj⟩
  · rintro ⟨v, hv, hj⟩
    exact ⟨some v, ⟨v, hv, rfl⟩, hj⟩

/-- Unless both are typed, payloads are compared as they look on the wire. -/
theorem same_eq (p q : Payload) (h : (p.isTyped && q.isTyped) = false) :
    T.same p q = match T.wireForm p, T.wireForm q with
      | .ok j, .ok k => j == k
      | _, _ => false := by
  cases p with
  | absent =>
    cases q with
    | absent => rfl
    | json w => exact (none_beq_present w).symm
    | typed t e =>
      simp only [same, isNull, wireForm, toJson]
      cases T.write t e with
      | error => rfl
      | ok w => exact (none_beq_present w).symm
  | json v =>
    cases q with
    | absent => exact (present_beq_none v).symm
    | json w => exact (present_beq v w).symm
    | typed t e =>
      simp only [same, wireForm, toJson]
      cases T.write t e with
      | error => rfl
      | ok w => exact (present_beq v w).symm
  | typed s d =>
    cases q with
    | absent =>
      simp only [same, isNull, wireForm, toJson]
      cases T.write s d with
      | error => rfl
      | ok v => exact (present_beq_none v).symm
    | json w =>
      simp only [same, wireForm, toJson]
      cases T.write s d with
      | error => rfl
      | ok v => exact (present_beq v w).symm
    | typed t e => cases h

theorem same_iff_sameWire (p q : Payload) (h : (p.isTyped && q.isTyped) = false) :
    T.same p q = true ↔ T.SameWire p q := by
  rw [same_eq p q h]
  unfold SameWire
  cases T.wireForm p with
  | error => simp
  | ok j =>
    cases T.wireForm q with
    | error => simp
    | ok k => simp

theorem SameWire.symm {p q : Payload} (h : T.SameWire p q) : T.SameWire q p := by
  obtain ⟨j, k, hp, hq, hjk⟩ := h
  exact ⟨k, j, hq, hp, BEq.symm hjk⟩

theorem same_typed_iff (s t : String) (d e : Datum) :
    T.same (.typed s d) (.typed t e) = true ↔ s = t ∧ T.eq s d e = true := by
  simp [same]

theorem Lawful.same_symm (hT : T.Lawful) (p q : Payload) : T.same p q = T.same q p := by
  apply Bool.eq_iff_iff.mpr
  rcases typed_cases p q with h | ⟨s, d, t, e, rfl, rfl⟩
  · have h' : (q.isTyped && p.isTyped) = false := (Bool.and_comm _ _).trans h
    rw [same_iff_sameWire p q h, same_iff_sameWire q p h']
    exact ⟨SameWire.symm, SameWire.symm⟩
  · rw [same_typed_iff, same_typed_iff]
    constructor
    · rintro ⟨rfl, h⟩
      exact ⟨rfl, (hT.symm s e d).trans h⟩
    · rintro ⟨rfl, h⟩
      exact ⟨rfl, (hT.symm t d e).trans h⟩

/-- Equal payloads look the same on the wire, as far as they can be written. -/
theorem Lawful.wireForm_beq (hT : T.Lawful) {p q : Payload} (h : T.same p q = true)
    {j k : Option Json} (hj : T.wireForm p = .ok j) (hk : T.wireForm q = .ok k) :
    (j == k) = true := by
  rcases typed_cases p q with ht | ⟨s, d, t, e, rfl, rfl⟩
  · rw [same_eq p q ht, hj, hk] at h
    exact h
  · obtain ⟨rfl, heq⟩ := (same_typed_iff s t d e).mp h
    obtain ⟨v, hv, rfl⟩ := wireForm_typed_eq_ok.mp hj
    obtain ⟨w, hw, rfl⟩ := wireForm_typed_eq_ok.mp hk
    rw [present_beq]
    exact hT.json s d e v w heq hv hw

/-- Equality of payloads goes both ways and is what the wire says: equal payloads look the same on
it, and payloads that are not both typed are equal exactly if they look the same on it. This holds
for all types with a lawful equality, of which those here are an example. -/
theorem same_symm_and_wire :
    (declared.Lawful ∧ ∀ p q : Payload, declared.same p q = (p == q) ∧
      declared.wireForm p = p.toJson.map present) ∧
    ∀ T : PayloadTypes, T.Lawful → ∀ p q : Payload,
      T.same p q = T.same q p ∧
      (T.same p q = true → ∀ j k, T.wireForm p = .ok j → T.wireForm q = .ok k →
        (j == k) = true) ∧
      ((p.isTyped && q.isTyped) = false → (T.same p q = true ↔ T.SameWire p q)) := by
  refine ⟨⟨declared_equivalence.toLawful, declared_eq⟩, fun T hT p q => ?_⟩
  have hwire : T.same p q = true → ∀ j k, T.wireForm p = .ok j → T.wireForm q = .ok k →
      (j == k) = true := fun h _ _ hj hk => hT.wireForm_beq h hj hk
  exact ⟨hT.same_symm p q, hwire, same_iff_sameWire p q⟩

/-- A tree and a typed value that is written with the other zero, which is the same number. -/
theorem same_symm_and_wire_zeros :
    let p : Payload := .json (.real ⟨true, 0, -1074⟩)
    let q := Shape.real.payload (.real .zero)
    declared.Lawful ∧ (p.isTyped && q.isTyped) = false ∧ declared.SameWire p q ∧
      declared.same p q = true ∧ declared.same q p = true := by
  intro p q
  have hlaw : declared.Lawful := declared_equivalence.toLawful
  obtain ⟨hsymm, -, hiff⟩ := same_symm_and_wire.2 declared hlaw p q
  have hwire : declared.SameWire p q := ⟨_, _, rfl, rfl, rfl⟩
  have hsame : declared.same p q = true := (hiff rfl).mpr hwire
  exact ⟨hlaw, rfl, hwire, hsame, hsymm ▸ hsame⟩

theorem Equivalence.exists_wireForm (hT : T.Equivalence) {p q : Payload} (h : T.same p q = true)
    {j : Option Json} (hj : T.wireForm p = .ok j) : ∃ k, T.wireForm q = .ok k := by
  rcases typed_cases p q with ht | ⟨s, d, t, e, rfl, rfl⟩
  · obtain ⟨-, k, -, hk, -⟩ := (same_iff_sameWire p q ht).mp h
    exact ⟨k, hk⟩
  · obtain ⟨rfl, heq⟩ := (same_typed_iff s t d e).mp h
    obtain ⟨v, hv, -⟩ := wireForm_typed_eq_ok.mp hj
    obtain ⟨w, hw⟩ := hT.writes s d e v heq hv
    exact ⟨_, wireForm_typed_eq_ok.mpr ⟨w, hw, rfl⟩⟩

/-- Where one end of a chain can be written so can its middle and its other end, and all look the
same on the wire. -/
theorem Equivalence.sameWire_trans (hT : T.Equivalence) {a b c : Payload}
    (hab : T.same a b = true) (hbc : T.same b c = true) {j : Option Json}
    (hj : T.wireForm a = .ok j) : T.SameWire a c := by
  obtain ⟨k, hk⟩ := hT.exists_wireForm hab hj
  obtain ⟨l, hl⟩ := hT.exists_wireForm hbc hk
  have hjk : (j == k) = true := hT.wireForm_beq hab hj hk
  have hkl : (k == l) = true := hT.wireForm_beq hbc hk hl
  exact ⟨j, l, hj, hl, BEq.trans hjk hkl⟩

/-- A payload that is not typed has a wire form. -/
theorem exists_wireForm_of_untyped {p : Payload} (h : p.isTyped = false) :
    ∃ j, T.wireForm p = .ok j := by
  cases p with
  | absent | json => exact ⟨_, rfl⟩
  | typed => cases h

/-- Whichever of the three is not typed can be written, and so can the others. -/
theorem Equivalence.sameWire_of_untyped (hT : T.Equivalence) {a b c : Payload}
    (hab : T.same a b = true) (hbc : T.same b c = true)
    (h : a.isTyped = false ∨ b.isTyped = false ∨ c.isTyped = false) : T.SameWire a c := by
  have hba : T.same b a = true := (hT.same_symm b a).trans hab
  have hcb : T.same c b = true := (hT.same_symm c b).trans hbc
  rcases h with ha | hb | hc
  · obtain ⟨j, hj⟩ := exists_wireForm_of_untyped (T := T) ha
    exact hT.sameWire_trans hab hbc hj
  · obtain ⟨k, hk⟩ := exists_wireForm_of_untyped (T := T) hb
    obtain ⟨j, hj⟩ := hT.exists_wireForm hba hk
    exact hT.sameWire_trans hab hbc hj
  · obtain ⟨l, hl⟩ := exists_wireForm_of_untyped (T := T) hc
    exact (hT.sameWire_trans hcb hba hl).symm

/-- A chain of equal payloads closes unless it leads from one typed payload to another through one
that is not typed. -/
theorem Equivalence.same_trans (hT : T.Equivalence) {a b c : Payload} (hab : T.same a b = true)
    (hbc : T.same b c = true) (h : b.isTyped = true ∨ (a.isTyped && c.isTyped) = false) :
    T.same a c = true := by
  rcases typed_cases a c with hac | ⟨s, d, t, e, rfl, rfl⟩
  · have hone : a.isTyped = false ∨ b.isTyped = false ∨ c.isTyped = false := by
      rcases Bool.and_eq_false_iff.mp hac with ha | hc
      · exact .inl ha
      · exact .inr (.inr hc)
    exact (same_iff_sameWire a c hac).mpr (hT.sameWire_of_untyped hab hbc hone)
  · have hb : b.isTyped = true := h.resolve_right nofun
    cases b with
    | absent | json => cases hb
    | typed r x =>
      obtain ⟨rfl, hdx⟩ := (same_typed_iff s r d x).mp hab
      obtain ⟨rfl, hxe⟩ := (same_typed_iff s t x e).mp hbc
      exact (same_typed_iff s s d e).mpr ⟨rfl, hT.trans s d x e hdx hxe⟩

/-- Equality of payloads is transitive along every chain but those from one typed payload to another
through one that is not typed. The ends of such a chain look the same on the wire, and they are
equal exactly if they are of one type in which they are equal. -/
theorem same_trans_unless_bridged :
    (declared.Equivalence ∧ ∀ p q : Payload, declared.same p q = (p == q) ∧
      declared.wireForm p = p.toJson.map present) ∧
    ∀ T : PayloadTypes, T.Equivalence → ∀ a b c : Payload,
      T.same a b = true → T.same b c = true →
      (b.isTyped = true ∨ (a.isTyped && c.isTyped) = false → T.same a c = true) ∧
      ∀ s d t e, a = .typed s d → c = .typed t e → b.isTyped = false →
        T.SameWire a c ∧ (T.same a c = true ↔ s = t ∧ T.eq s d e = true) := by
  refine ⟨⟨declared_equivalence, declared_eq⟩, fun T hT a b c hab hbc => ?_⟩
  refine ⟨hT.same_trans hab hbc, ?_⟩
  rintro s d t e rfl rfl hb
  exact ⟨hT.sameWire_of_untyped hab hbc (.inr (.inl hb)), same_typed_iff s t d e⟩

/-- A number as a value of one type, as a tree, and as a value of another type. -/
theorem same_trans_unless_bridged_integers :
    let a := (Shape.int .int64).payload (.int 1)
    let b : Payload := .json (.int 1)
    let c := (Shape.int .word8).payload (.int 1)
    declared.Equivalence ∧ declared.same a b = true ∧ declared.same b c = true ∧
      b.isTyped = false ∧ declared.SameWire a c ∧
      (declared.same a c = true ↔ IntKind.int64.name = IntKind.word8.name ∧
        declared.eq IntKind.int64.name (.int 1) (.int 1) = true) := by
  intro a b c
  have hab : declared.same a b = true := rfl
  have hbc : declared.same b c = true := rfl
  have hchain := same_trans_unless_bridged.2 declared declared_equivalence a b c hab hbc
  obtain ⟨hwire, hiff⟩ := hchain.2 _ _ _ _ rfl rfl rfl
  exact ⟨declared_equivalence, hab, hbc, rfl, hwire, hiff⟩

/-- Equality of payloads is not transitive: both numbers equal the tree, but they are of two
types. -/
theorem integers_of_two_types_differ :
    declared.Equivalence ∧
      ((Shape.int .int64).payload (.int 1) == Payload.json (.int 1)) = true ∧
      (Payload.json (.int 1) == (Shape.int .word8).payload (.int 1)) = true ∧
      ((Shape.int .int64).payload (.int 1) == (Shape.int .word8).payload (.int 1)) = false := by
  refine ⟨declared_equivalence, rfl, rfl, ?_⟩
  decide

end PayloadTypes
end RpcPeer
