import RpcPeer.Proofs.Json.Equality
import RpcPeer.Proofs.Steps
import RpcPeer.Shape.Decode

/-! Equality of values, and what equal values are written as. -/
namespace RpcPeer.Datum
open Steps

mutual
/-- The value with the signs of zeros left out. -/
def oneZero : Datum → Datum
  | real x => real x.oneZero
  | json v => json v.oneZero
  | list xs => list (oneZeroItems xs)
  | record fs => record (oneZeroFields fs)
  | alternative i x => alternative i (oneZero x)
  | d => d

def oneZeroItems : List Datum → List Datum
  | [] => []
  | x :: xs => oneZero x :: oneZeroItems xs

def oneZeroFields : List (String × Datum) → List (String × Datum)
  | [] => []
  | (k, x) :: fs => (k, oneZero x) :: oneZeroFields fs
end

mutual
theorem same_iff (d e : Datum) : same d e = true ↔ d.oneZero = e.oneZero := by
  cases d with
  | unit | absent | bool | int | text | variant | «sealed» => cases e <;> simp [same, oneZero]
  | real x => cases e <;> simp [same, oneZero, Binary64.same_iff]
  | json v => cases e <;> simp [same, oneZero, Json.beq_iff]
  | list xs =>
    cases e with
    | list ys => simpa [same, oneZero] using sameItems_iff xs ys
    | _ => simp [same, oneZero]
  | record fs =>
    cases e with
    | record gs => simpa [same, oneZero] using sameFields_iff fs gs
    | _ => simp [same, oneZero]
  | alternative i x =>
    cases e with
    | alternative j y => simp [same, oneZero, same_iff x y]
    | _ => simp [same, oneZero]

theorem sameItems_iff (xs ys : List Datum) :
    sameItems xs ys = true ↔ oneZeroItems xs = oneZeroItems ys := by
  cases xs with
  | nil => cases ys <;> simp [sameItems, oneZeroItems]
  | cons x xs =>
    cases ys with
    | nil => simp [sameItems, oneZeroItems]
    | cons y ys =>
      have hx := same_iff x y
      have hxs := sameItems_iff xs ys
      simp [sameItems, oneZeroItems, hx, hxs]

theorem sameFields_iff (fs gs : List (String × Datum)) :
    sameFields fs gs = true ↔ oneZeroFields fs = oneZeroFields gs := by
  cases fs with
  | nil => cases gs <;> simp [sameFields, oneZeroFields]
  | cons f fs =>
    cases gs with
    | nil => simp [sameFields, oneZeroFields]
    | cons g gs =>
      have hf := same_iff f.2 g.2
      have hfs := sameFields_iff fs gs
      simp [sameFields, oneZeroFields, hf, hfs, and_assoc]
end

theorem beq_iff (d e : Datum) : (d == e) = true ↔ d.oneZero = e.oneZero := same_iff d e

instance : EquivBEq Datum where
  rfl {d} := (beq_iff d d).mpr rfl
  symm {d e} h := (beq_iff e d).mpr ((beq_iff d e).mp h).symm
  trans {a b c} hab hbc := (beq_iff a c).mpr (((beq_iff a b).mp hab).trans ((beq_iff b c).mp hbc))

theorem oneZero_eq_absent_iff (d : Datum) : d.oneZero = absent ↔ d = absent := by
  cases d <;> simp [oneZero]

theorem fieldsToJson_cons_of_ne {x : Datum} (h : x ≠ absent) (k : String)
    (fs : List (String × Datum)) :
    fieldsToJson ((k, x) :: fs) = do return (k, ← x.toJson) :: (← fieldsToJson fs) := by
  rw [fieldsToJson]
  exact fun hx => h hx

mutual
theorem toJson_oneZero (d : Datum) : d.oneZero.toJson = d.toJson.map Json.oneZero := by
  cases d with
  | unit | absent | bool | int | real | text | variant | json | «sealed» => rfl
  | list xs =>
    rw [oneZero, toJson, toJson, itemsToJson_oneZero xs]
    cases itemsToJson xs <;> rfl
  | record fs =>
    rw [oneZero, toJson, toJson, fieldsToJson_oneZero fs]
    cases fieldsToJson fs with
    | error e => rfl
    | ok ms => exact congrArg Except.ok (Json.oneZero_ofMembers ms).symm
  | alternative i x =>
    rw [oneZero, toJson, toJson]
    exact toJson_oneZero x

theorem itemsToJson_oneZero (xs : List Datum) :
    itemsToJson (oneZeroItems xs) = (itemsToJson xs).map Json.oneZeroItems := by
  cases xs with
  | nil => rfl
  | cons x xs =>
    rw [oneZeroItems, itemsToJson, itemsToJson, toJson_oneZero x, itemsToJson_oneZero xs]
    cases x.toJson with
    | error e => rfl
    | ok v => cases itemsToJson xs <;> rfl

theorem fieldsToJson_oneZero (fs : List (String × Datum)) :
    fieldsToJson (oneZeroFields fs) = (fieldsToJson fs).map Json.oneZeroMembers := by
  cases fs with
  | nil => rfl
  | cons f fs =>
    obtain ⟨k, x⟩ := f
    have hx := toJson_oneZero x
    have hfs := fieldsToJson_oneZero fs
    by_cases ha : x = absent
    · rw [ha]
      exact hfs
    · have ha' : x.oneZero ≠ absent := fun hz => ha ((oneZero_eq_absent_iff x).mp hz)
      rw [oneZeroFields, fieldsToJson_cons_of_ne ha', fieldsToJson_cons_of_ne ha, hx, hfs]
      cases x.toJson with
      | error e => rfl
      | ok v => cases fieldsToJson fs <;> rfl
end

/-- Equal values have equal trees, or none of them has a tree. -/
theorem toJson_of_beq {d e : Datum} (h : (d == e) = true) :
    d.toJson.map Json.oneZero = e.toJson.map Json.oneZero := by
  rw [← toJson_oneZero, ← toJson_oneZero, (beq_iff d e).mp h]

end RpcPeer.Datum
