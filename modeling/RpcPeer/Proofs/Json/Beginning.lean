import Mathlib.Data.List.DropRight
import Mathlib.Tactic.SplitIfs
import RpcPeer.Proofs.Steps
import RpcPeer.Shape.Read

/-! What the first character of a text tells of its value. -/
namespace RpcPeer.Json
open Steps

def IsNumber : Json → Prop
  | int _ | real _ => True
  | _ => False

def IsReal : Json → Prop
  | real _ => True
  | _ => False

theorem IsReal.isNumber {v : Json} (h : v.IsReal) : v.IsNumber := by
  cases v <;> first | exact trivial | exact h.elim

section
variable {negative : Bool} {digits : Nat} {start : Int} {cs rest : List Char} {v : Json}

theorem isReal_realOf (h : realOf negative digits start = .ok v) : v.IsReal := by
  unfold realOf at h
  split at h
  · cases h
    exact trivial
  · cases h

theorem isReal_of_realOf_bind {tail : List Char}
    (h : (do return (← realOf negative digits start, tail)) = Except.ok (v, rest)) :
    v.IsReal := by
  obtain ⟨w, hw, he⟩ := bind_eq_ok.mp h
  cases he
  exact isReal_realOf hw

theorem isReal_exponentPart (h : exponentPart negative digits start cs = .ok (v, rest)) :
    v.IsReal := by
  unfold exponentPart at h
  split at h
  next minus ds _ =>
    by_cases hds : (ds.takeWhile Char.isDigit).isEmpty = true
    · rw [if_pos hds] at h
      cases h
    · rw [if_neg hds] at h
      dsimp only at h
      split_ifs at h
      · cases h
      · cases h
      · cases h
        exact trivial
      · exact isReal_of_realOf_bind h
      · exact isReal_of_realOf_bind h

theorem isReal_fractionPart (h : fractionPart negative digits start cs = .ok (v, rest)) :
    v.IsReal := by
  unfold fractionPart at h
  by_cases hds : (cs.takeWhile Char.isDigit).isEmpty = true
  · rw [if_pos hds] at h
    cases h
  · rw [if_neg hds] at h
    split at h
    split at h
    · exact isReal_exponentPart h
    · exact isReal_exponentPart h
    · exact isReal_of_realOf_bind h

theorem isNumber_number (h : number negative cs = .ok (v, rest)) : v.IsNumber := by
  unfold number at h
  dsimp only at h
  split at h
  · cases h
  · cases h
  · split at h
    · exact (isReal_fractionPart h).isNumber
    · exact (isReal_exponentPart h).isNumber
    · exact (isReal_exponentPart h).isNumber
    · split_ifs at h
      · cases h
        exact trivial
      · cases h
        exact trivial
      · exact (isReal_of_realOf_bind h).isNumber

end

/-- A text of such a value may start with this character. -/
inductive Begins : Char → Json → Prop
  | null : Begins 'n' null
  | yes : Begins 't' (bool true)
  | no : Begins 'f' (bool false)
  | str {s : String} : Begins '"' (str s)
  | arr {xs : List Json} : Begins '[' (arr xs)
  | obj {ms : List (String × Json)} : Begins '\x7b' (obj ms)
  | number {c : Char} {v : Json} (start : Shape.startsNumber c = true) (number : v.IsNumber) :
      Begins c v

theorem skipSpace_cons {c : Char} (h : isSpace c = false) (cs : List Char) :
    skipSpace (c :: cs) = c :: cs := List.dropWhile_cons_of_neg (by simp [h])

theorem ne_of_isDigit {c d : Char} (hc : c.isDigit = true) (hd : d.isDigit = false) : c ≠ d := by
  rintro rfl
  exact Bool.noConfusion (hc.symm.trans hd)

theorem isSpace_of_isDigit {c : Char} (h : c.isDigit = true) : isSpace c = false := by
  simp [isSpace, ne_of_isDigit h]

theorem valueOver_digit {c : Char} (hc : c.isDigit = true) (nested : Option (Reader Json))
    (cs : List Char) : valueOver nested (c :: cs) = number false (c :: cs) := by
  unfold valueOver
  rw [skipSpace_cons (isSpace_of_isDigit hc)]
  split
  case h_9 d ds _ _ _ _ _ _ _ h =>
    obtain ⟨rfl, rfl⟩ := List.cons.inj h
    exact if_pos hc
  all_goals
    rename_i h
    cases h
  all_goals exact absurd hc (by decide)

section
variable {nested : Option (Reader Json)} {c : Char} {cs ds rest : List Char} {v : Json}

theorem value_eq_valueOver (depth : Nat) : ∃ nested, value depth = valueOver nested := by
  cases depth with
  | zero => exact ⟨none, rfl⟩
  | succ depth => exact ⟨some (value depth), rfl⟩

theorem skipSpace_skipSpace (cs : List Char) : skipSpace (skipSpace cs) = skipSpace cs :=
  List.dropWhile_idempotent isSpace cs

theorem value_skipSpace (depth : Nat) (cs : List Char) :
    value depth (skipSpace cs) = value depth cs := by
  obtain ⟨nested, hn⟩ := value_eq_valueOver depth
  rw [hn]
  unfold valueOver
  rw [skipSpace_skipSpace]

theorem begins_of_valueOver (h : valueOver nested cs = .ok (v, rest)) :
    ∃ c ds, skipSpace cs = c :: ds ∧ Begins c v := by
  unfold valueOver at h
  split at h
  next => cases h
  next ds hs =>
    obtain ⟨a, -, he⟩ := map_eq_ok.mp h
    cases he
    exact ⟨_, _, hs, .null⟩
  next ds hs =>
    obtain ⟨a, -, he⟩ := map_eq_ok.mp h
    cases he
    exact ⟨_, _, hs, .yes⟩
  next ds hs =>
    obtain ⟨a, -, he⟩ := map_eq_ok.mp h
    cases he
    exact ⟨_, _, hs, .no⟩
  next ds hs => exact ⟨_, _, hs, .number rfl (isNumber_number h)⟩
  next ds hs =>
    obtain ⟨a, -, he⟩ := map_eq_ok.mp h
    cases he
    exact ⟨_, _, hs, .str⟩
  next ds hs =>
    split at h
    · cases h
    · obtain ⟨a, -, he⟩ := map_eq_ok.mp h
      cases he
      exact ⟨_, _, hs, .arr⟩
  next ds hs =>
    split at h
    · cases h
    · obtain ⟨a, -, he⟩ := map_eq_ok.mp h
      cases he
      exact ⟨_, _, hs, .obj⟩
  next c ds _ _ _ _ _ _ _ hs =>
    split_ifs at h with hc
    exact ⟨_, _, hs, .number (by simp [Shape.startsNumber, hc]) (isNumber_number h)⟩

theorem begins_of_value {depth : Nat} (h : value depth cs = .ok (v, rest)) :
    ∃ c ds, skipSpace cs = c :: ds ∧ Begins c v := by
  obtain ⟨nested, hn⟩ := value_eq_valueOver depth
  rw [hn] at h
  exact begins_of_valueOver h

/-- How deep a value may nest counts for lists and objects only. -/
theorem value_zero_eq (depth : Nat) (hs : skipSpace cs = c :: ds) (hlist : c ≠ '[')
    (hobj : c ≠ '\x7b') : value 0 (c :: ds) = value depth cs := by
  obtain ⟨nested, hn⟩ := value_eq_valueOver depth
  have hnone : value 0 = valueOver none := rfl
  rw [← hs, value_skipSpace, hn, hnone]
  unfold valueOver
  rw [hs]
  split
  all_goals try rfl
  next he => exact absurd (List.cons.inj he).1 hlist
  next he => exact absurd (List.cons.inj he).1 hobj

end

end RpcPeer.Json
