import Mathlib.Data.List.Induction
import RpcPeer.Text.Numeral

/-! Decimal numerals that are written are read back. -/
namespace RpcPeer.Text

theorem ofDigits_eq (cs : List Char) : ofDigits cs = Nat.ofDigitChars 10 cs 0 :=
  Nat.ofDigitChars_eq_foldl.symm

theorem ofDigits_toDigits (n : Nat) : ofDigits (Nat.toDigits 10 n) = n := by
  rw [ofDigits_eq, Nat.ofDigitChars_ten_toDigits]

theorem isDigit_of_mem_toDigits {n : Nat} {c : Char} (h : c ∈ Nat.toDigits 10 n) :
    c.isDigit = true := Nat.isDigit_of_mem_toDigits (by decide) (by decide) h

theorem isDigit_iff {c : Char} : c.isDigit = true ↔ 48 ≤ c.toNat ∧ c.toNat ≤ 57 := by
  simp only [Char.isDigit, Bool.and_eq_true, decide_eq_true_eq, ge_iff_le, UInt32.le_iff_toNat_le]
  rfl

theorem digits?_toDigits (n : Nat) : digits? (Nat.toDigits 10 n) = some n := by
  have hne : Nat.toDigits 10 n ≠ [] := Nat.toDigits_ne_nil
  have hall : (Nat.toDigits 10 n).all Char.isDigit = true :=
    List.all_eq_true.mpr fun c hc => isDigit_of_mem_toDigits hc
  simp [digits?, hne, hall, ofDigits_toDigits]

theorem natural?_toDigits (n : Nat) : natural? (Nat.toDigits 10 n) = some n := by
  unfold natural?
  split
  next cs h =>
    have hp : '+' ∈ Nat.toDigits 10 n := by rw [h]; exact List.mem_cons_self
    exact absurd (isDigit_of_mem_toDigits hp) (by decide)
  next => exact digits?_toDigits n

theorem ofDigits_append_singleton (cs : List Char) (c : Char) :
    ofDigits (cs ++ [c]) = 10 * ofDigits cs + digitValue c := by
  rw [ofDigits, List.foldl_append, List.foldl_cons, List.foldl_nil, ofDigits]

theorem toDigits_digitValue {c : Char} (h : c.isDigit = true) :
    Nat.toDigits 10 (digitValue c) = [c] := by
  obtain ⟨hlow, hhigh⟩ := isDigit_iff.mp h
  obtain ⟨d, hd, hc⟩ : ∃ d < 10, c.toNat = d + 48 := ⟨c.toNat - 48, by omega, by omega⟩
  obtain rfl : c = Char.ofNat (d + 48) := by rw [← hc, Char.ofNat_toNat]
  have hall : ∀ d < 10, Nat.toDigits 10 (digitValue (Char.ofNat (d + 48))) =
      [Char.ofNat (d + 48)] := by decide
  exact hall d hd

/-- Digits without a leading zero are the numeral of the number that they give. -/
theorem toDigits_ofDigits {ds : List Char} (hds : ∀ c ∈ ds, c.isDigit = true) (hne : ds ≠ [])
    (hlead : ∀ c cs, ds ≠ '0' :: c :: cs) : Nat.toDigits 10 (ofDigits ds) = ds := by
  induction ds using List.reverseRecOn with
  | nil => exact absurd rfl hne
  | append_singleton ds c ih =>
    have hc : c.isDigit = true := hds c (by simp)
    rw [ofDigits_append_singleton]
    by_cases hnil : ds = []
    · subst hnil
      simpa [ofDigits] using toDigits_digitValue hc
    · have hrest : Nat.toDigits 10 (ofDigits ds) = ds := by
        refine ih (fun d hd => hds d (by simp [hd])) hnil fun d cs h => ?_
        exact hlead d (cs ++ [c]) (by simp [h])
      -- the digits before the last give no zero, which would be a leading one
      have hpos : 0 < ofDigits ds := by
        refine Nat.pos_of_ne_zero fun hzero => ?_
        rw [hzero, Nat.toDigits_zero] at hrest
        exact hlead c [] (by rw [← hrest]; rfl)
      have hlt : digitValue c < 10 := by
        have hdigit := isDigit_iff.mp hc
        rw [digitValue]
        omega
      rw [← Nat.toDigits_append_toDigits (by decide) hpos hlt, hrest, toDigits_digitValue hc]

end RpcPeer.Text
