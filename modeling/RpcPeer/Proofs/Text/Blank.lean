import Mathlib.Data.List.TakeWhile
import RpcPeer.Proofs.Text.Numeral
import RpcPeer.Text.Blank

/-! Trimming: blanks at either end do not count, and a visible character keeps its neighbours. -/
namespace RpcPeer.Text

variable {bs cs xs ys : List Char} {c : Char}

theorem trim_blank_append (h : ∀ c ∈ bs, isBlank c = true) : trim (bs ++ cs) = trim cs := by
  unfold trim
  rw [List.dropWhile_append_of_pos h]

theorem trim_append_blank (h : ∀ c ∈ bs, isBlank c = true) : trim (cs ++ bs) = trim cs := by
  unfold trim
  rw [List.dropWhile_append]
  split
  next hx =>
    have hb : bs.dropWhile isBlank = [] := List.dropWhile_eq_nil_iff.mpr h
    rw [hb, List.isEmpty_iff.mp hx]
  next =>
    rw [List.reverse_append, List.dropWhile_append_of_pos]
    exact fun c hc => h c (List.mem_reverse.mp hc)

theorem trim_dropWhile (cs : List Char) : trim (cs.dropWhile isBlank) = trim cs := by
  have h : ∀ c ∈ cs.takeWhile isBlank, isBlank c = true := fun c hc => List.mem_takeWhile_imp hc
  rw [← trim_blank_append h, List.takeWhile_append_dropWhile]

/-- The characters without the blanks at their end. -/
def trimEnd (cs : List Char) : List Char := (cs.reverse.dropWhile isBlank).reverse

theorem trim_trimEnd (cs : List Char) : trim (trimEnd cs) = trim cs := by
  have h : ∀ c ∈ (cs.reverse.takeWhile isBlank).reverse, isBlank c = true :=
    fun c hc => List.mem_takeWhile_imp (List.mem_reverse.mp hc)
  rw [← trim_append_blank h, trimEnd, ← List.reverse_append, List.takeWhile_append_dropWhile,
    List.reverse_reverse]

theorem dropWhile_append_visible (h : isBlank c = false) :
    (xs ++ c :: ys).dropWhile isBlank = xs.dropWhile isBlank ++ c :: ys := by
  rw [List.dropWhile_append]
  split
  next hx =>
    rw [List.dropWhile_cons_of_neg (by simp [h]), List.isEmpty_iff.mp hx, List.nil_append]
  next => rfl

theorem trim_append_visible (h : isBlank c = false) :
    trim (xs ++ c :: ys) = xs.dropWhile isBlank ++ c :: trimEnd ys := by
  unfold trim trimEnd
  rw [dropWhile_append_visible h]
  simp only [List.reverse_append, List.reverse_cons, List.append_assoc, List.singleton_append]
  rw [dropWhile_append_visible h]
  simp

theorem trim_eq_nil_iff : trim cs = [] ↔ ∀ c ∈ cs, isBlank c = true := by
  constructor
  · intro h c hc
    cases hb : isBlank c with
    | true => rfl
    | false =>
      obtain ⟨xs, ys, rfl⟩ := List.append_of_mem hc
      rw [trim_append_visible hb] at h
      exact absurd h (by simp)
  · intro h
    have hnil : trim ([] ++ cs) = trim [] := trim_append_blank h
    rwa [List.nil_append] at hnil

theorem trim_eq_self (h : ∀ c ∈ cs, isBlank c = false) : trim cs = cs := by
  have hd : ∀ {ds : List Char}, (∀ c ∈ ds, isBlank c = false) → ds.dropWhile isBlank = ds := by
    intro ds hds
    cases ds with
    | nil => rfl
    | cons d ds => exact List.dropWhile_cons_of_neg (by simp [hds d List.mem_cons_self])
  unfold trim
  rw [hd h, hd fun c hc => h c (List.mem_reverse.mp hc), List.reverse_reverse]

theorem mem_of_mem_trim (h : c ∈ trim cs) : c ∈ cs := by
  have hs := List.mem_reverse.mp ((List.dropWhile_suffix _).subset (List.mem_reverse.mp h))
  exact (List.dropWhile_suffix _).subset hs

theorem isBlank_of_isDigit (h : c.isDigit = true) : isBlank c = false := by
  rw [isDigit_iff] at h
  simp only [isBlank, Bool.or_eq_false_iff, Bool.and_eq_false_iff, decide_eq_false_iff_not,
    beq_eq_false_iff_ne]
  omega

end RpcPeer.Text
