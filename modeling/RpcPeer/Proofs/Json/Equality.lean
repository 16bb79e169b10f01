import RpcPeer.Proofs.Json.Tree

/-! Equality of trees: it tells them apart but for the sign of a zero. -/
namespace RpcPeer

namespace Binary64

/-- The number with the sign of a zero left out. -/
def oneZero (x : Binary64) : Binary64 := if x.isZero then zero else x

theorem same_iff (x y : Binary64) : x.same y = true ↔ x.oneZero = y.oneZero := by
  have hzero : zero.isZero = true := rfl
  constructor
  · intro h
    rcases Bool.or_eq_true_iff.mp h with he | hz
    · rw [beq_iff_eq.mp he]
    · obtain ⟨hx, hy⟩ := Bool.and_eq_true_iff.mp hz
      rw [oneZero, oneZero, if_pos hx, if_pos hy]
  · intro h
    unfold oneZero at h
    split_ifs at h with hx hy hy
    · simp [same, hx, hy]
    · exact absurd (h ▸ hzero) hy
    · exact absurd (h ▸ hzero) hx
    · simp [same, h]

end Binary64

namespace Json

mutual
/-- The tree with the signs of zeros left out. -/
def oneZero : Json → Json
  | real x => real x.oneZero
  | arr xs => arr (oneZeroItems xs)
  | obj ms => obj (oneZeroMembers ms)
  | v => v

def oneZeroItems : List Json → List Json
  | [] => []
  | x :: xs => oneZero x :: oneZeroItems xs

def oneZeroMembers : List (String × Json) → List (String × Json)
  | [] => []
  | (k, v) :: ms => (k, oneZero v) :: oneZeroMembers ms
end

mutual
theorem same_iff (v w : Json) : same v w = true ↔ v.oneZero = w.oneZero := by
  cases v with
  | null => cases w <;> simp [same, oneZero]
  | bool a => cases w <;> simp [same, oneZero]
  | int m => cases w <;> simp [same, oneZero]
  | real x => cases w <;> simp [same, oneZero, Binary64.same_iff]
  | str s => cases w <;> simp [same, oneZero]
  | arr xs =>
    cases w with
    | arr ys => simpa [same, oneZero] using sameItems_iff xs ys
    | _ => simp [same, oneZero]
  | obj ms =>
    cases w with
    | obj ns => simpa [same, oneZero] using sameMembers_iff ms ns
    | _ => simp [same, oneZero]

theorem sameItems_iff (xs ys : List Json) :
    sameItems xs ys = true ↔ oneZeroItems xs = oneZeroItems ys := by
  cases xs with
  | nil => cases ys <;> simp [sameItems, oneZeroItems]
  | cons x xs =>
    cases ys with
    | nil => simp [sameItems, oneZeroItems]
    | cons y ys =>
      have hx := same_iff x y
      have hxs := sameItems_iff xs ys
      simp [sameItems, oneZeroItems, hx, hxs]

theorem sameMembers_iff (ms ns : List (String × Json)) :
    sameMembers ms ns = true ↔ oneZeroMembers ms = oneZeroMembers ns := by
  cases ms with
  | nil => cases ns <;> simp [sameMembers, oneZeroMembers]
  | cons m ms =>
    cases ns with
    | nil => simp [sameMembers, oneZeroMembers]
    | cons n ns =>
      have hm := same_iff m.2 n.2
      have hms := sameMembers_iff ms ns
      simp [sameMembers, oneZeroMembers, hm, hms, and_assoc]
end

theorem beq_iff (v w : Json) : (v == w) = true ↔ v.oneZero = w.oneZero := same_iff v w

instance : EquivBEq Json where
  symm {v w} h := (beq_iff w v).mpr ((beq_iff v w).mp h).symm
  trans {u v w} huv hvw := (beq_iff u w).mpr (((beq_iff u v).mp huv).trans ((beq_iff v w).mp hvw))

theorem oneZeroMembers_insertMember (name : String) (v : Json) (ms : List (String × Json)) :
    oneZeroMembers (insertMember name v ms) = insertMember name v.oneZero (oneZeroMembers ms) := by
  induction ms with
  | nil => rfl
  | cons m ms ih =>
    obtain ⟨k, w⟩ := m
    simp only [insertMember, oneZeroMembers]
    split_ifs
    · rfl
    · rfl
    · exact congrArg ((k, w.oneZero) :: ·) ih

theorem oneZero_ofMembers (ms : List (String × Json)) :
    (ofMembers ms).oneZero = ofMembers (oneZeroMembers ms) := by
  -- the members that have been put in already take part in the induction
  have hfold : ∀ acc : List (String × Json),
      oneZeroMembers (ms.foldl (fun acc m => insertMember m.1 m.2 acc) acc) =
        (oneZeroMembers ms).foldl (fun acc m => insertMember m.1 m.2 acc)
          (oneZeroMembers acc) := by
    induction ms with
    | nil => exact fun acc => rfl
    | cons m ms ih =>
      intro acc
      have hm := oneZeroMembers_insertMember m.1 m.2 acc
      rw [List.foldl_cons, ih, hm]
      rfl
  exact congrArg obj (hfold [])

end Json
end RpcPeer
