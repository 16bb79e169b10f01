import RpcPeer.Json.Printer
import RpcPeer.Proofs.Json.Local
import RpcPeer.Proofs.Text.Numeral

/-! How the text of a real number is read, if it is not refused. -/
namespace RpcPeer
namespace Json
open Steps

def AllDigits (cs : List Char) : Prop := ∀ c ∈ cs, c.isDigit = true

/-- Nothing, or an exponent with its sign. -/
def Power (cs : List Char) : Prop :=
  cs = [] ∨ ∃ (minus : Bool) (ds : List Char),
    cs = 'e' :: (if minus then '-' else '+') :: ds ∧ AllDigits ds

/-- What may stand behind the first digits: a fraction and an exponent, one of them or none. -/
def Ending (cs : List Char) : Prop :=
  Power cs ∨ ∃ ds p, cs = '.' :: (ds ++ p) ∧ AllDigits ds ∧ Power p

/-- The text of a number without its sign. Not every numeral is well formed: digits may be
missing. -/
def Numeral (cs : List Char) : Prop := ∃ ds t, cs = ds ++ t ∧ AllDigits ds ∧ Ending t

section
variable {cs ds rest rest' : List Char}

theorem AllDigits.append (hcs : AllDigits cs) (hds : AllDigits ds) : AllDigits (cs ++ ds) :=
  fun c hc => (List.mem_append.mp hc).elim (hcs c) (hds c)

theorem AllDigits.sublist (h : AllDigits cs) (hs : ds.Sublist cs) : AllDigits ds :=
  fun c hc => h c (hs.subset hc)

theorem AllDigits.toDigits (n : Nat) : AllDigits (Nat.toDigits 10 n) :=
  fun _ => Text.isDigit_of_mem_toDigits

theorem AllDigits.zeros (n : Nat) : AllDigits (Binary64.zeros n) := by
  intro c hc
  rw [List.eq_of_mem_replicate hc]
  rfl

theorem Power.noDigit (h : Power cs) : NoDigit cs := by
  rcases h with rfl | ⟨minus, ds, rfl, -⟩
  · exact .nil
  · exact .cons rfl

theorem Ending.noDigit (h : Ending cs) : NoDigit cs := by
  rcases h with h | ⟨ds, p, rfl, -⟩
  · exact h.noDigit
  · exact .cons rfl

/-- A numeral starts with a digit, or with what follows the missing digits. -/
theorem Numeral.head {c : Char} (h : Numeral (c :: cs)) :
    c.isDigit = true ∨ c = '.' ∨ c = 'e' := by
  obtain ⟨ds, t, heq, hds, ht⟩ := h
  cases ds with
  | nil =>
    rcases ht with (rfl | ⟨minus, es, rfl, -⟩) | ⟨fs, p, rfl, -⟩
    · cases heq
    · exact .inr (.inr (List.cons.inj heq).1)
    · exact .inr (.inl (List.cons.inj heq).1)
  | cons d ds =>
    obtain rfl := (List.cons.inj heq).1
    exact .inl (hds c List.mem_cons_self)

end

section
variable {negative : Bool} {digits : Nat} {start : Int} {cs ds rest rest' : List Char} {v : Json}

theorem rest_of_afterSign {minus : Bool} (hds : AllDigits ds) (hr : Separate rest)
    (h : afterSign negative minus digits start (ds ++ rest) = .ok (v, rest')) : rest' = rest := by
  by_cases hne : ds = []
  · subst hne
    have htake := (span_digits hds hr.noDigit).1
    simp only [afterSign, htake] at h
    cases h
  · rw [afterSign_digits hds hne hr.noDigit] at h
    obtain ⟨w, -, he⟩ := map_eq_ok.mp h
    exact (congrArg Prod.snd he).symm

theorem rest_of_afterDigits (hcs : Power cs) (hr : Separate rest)
    (h : afterDigits negative digits start (cs ++ rest) = .ok (v, rest')) : rest' = rest := by
  rcases hcs with rfl | ⟨minus, ds, rfl, hds⟩
  · rw [List.nil_append] at h
    unfold afterDigits at h
    split at h
    next => exact absurd rfl (hr _ rfl).2.2.1
    next => exact absurd rfl (hr _ rfl).2.2.2
    next =>
      obtain ⟨w, -, he⟩ := bind_eq_ok.mp h
      cases he
      rfl
  · have hsign : afterSign negative minus digits start (ds ++ rest) = .ok (v, rest') :=
      (exponentPart_sign minus (ds ++ rest)).symm.trans h
    exact rest_of_afterSign hds hr hsign

theorem rest_of_fractionPart (hds : AllDigits ds) (hcs : Power cs) (hr : Separate rest)
    (h : fractionPart negative digits start (ds ++ cs ++ rest) = .ok (v, rest')) :
    rest' = rest := by
  have hafter : NoDigit (cs ++ rest) := hcs.noDigit.append hr
  rw [List.append_assoc] at h
  by_cases hne : ds = []
  · subst hne
    have htake := (span_digits hds hafter).1
    simp only [fractionPart, htake] at h
    cases h
  · rw [fractionPart_digits hds hne hafter] at h
    exact rest_of_afterDigits hcs hr h

theorem rest_of_afterWhole (hcs : Ending cs) (hr : Separate rest)
    (h : afterWhole negative ds (cs ++ rest) = .ok (v, rest')) : rest' = rest := by
  rcases hcs with (rfl | ⟨minus, es, rfl, hes⟩) | ⟨fs, p, rfl, hfs, hp⟩
  · rw [List.nil_append, afterWhole_end negative ds fun c hc => (hr c hc).2] at h
    obtain ⟨w, -, he⟩ := map_eq_ok.mp h
    exact (congrArg Prod.snd he).symm
  · have hpower : Power ('e' :: (if minus then '-' else '+') :: es) := .inr ⟨minus, es, rfl, hes⟩
    exact rest_of_afterDigits hpower hr h
  · exact rest_of_fractionPart hfs hp hr h

theorem rest_of_number (hcs : Numeral cs) (hr : Separate rest)
    (h : number negative (cs ++ rest) = .ok (v, rest')) : rest' = rest := by
  obtain ⟨ds, t, rfl, hds, ht⟩ := hcs
  rw [List.append_assoc, number_digits negative hds (ht.noDigit.append hr)] at h
  rcases afterLeading_cases negative ds with hbad | ⟨-, hread⟩
  · obtain ⟨e, he⟩ := hbad (t ++ rest)
    cases he.symm.trans h
  · rw [hread] at h
    exact rest_of_afterWhole ht hr h

end
end Json

namespace Binary64
open Json

theorem numeral_positional {digits : List Char} (h : AllDigits digits) (k : Int) :
    Numeral (positional digits k) ∧ positional digits k ≠ [] := by
  have hend : ∀ ds, AllDigits ds → Ending ('.' :: ds) := fun ds hds =>
    .inr ⟨ds, [], by rw [List.append_nil], hds, .inl rfl⟩
  have hzero : AllDigits ['0'] := AllDigits.zeros 1
  unfold positional
  split_ifs with hk
  · have hds := (AllDigits.zeros (-k - 1).toNat).append h
    exact ⟨⟨['0'], _, rfl, hzero, hend _ hds⟩, List.cons_ne_nil _ _⟩
  · dsimp only
    split_ifs with hlen
    · have hds := h.append (.zeros (k.toNat + 1 - digits.length))
      exact ⟨⟨_, _, rfl, hds, hend _ hzero⟩, by simp⟩
    · have htake := h.sublist (List.take_sublist (k.toNat + 1) digits)
      have hdrop := h.sublist (List.drop_sublist (k.toNat + 1) digits)
      exact ⟨⟨_, _, rfl, htake, hend _ hdrop⟩, by simp⟩

theorem power_exponent (k : Int) :
    Power ('e' :: (if k < 0 then '-' :: Nat.toDigits 10 k.natAbs
      else DecimalLayout.json.plus.toList ++ Nat.toDigits 10 k.natAbs)) := by
  refine .inr ⟨decide (k < 0), Nat.toDigits 10 k.natAbs, ?_, .toDigits _⟩
  by_cases hk : k < 0
  · simp [hk]
  · simp [hk, DecimalLayout.json]

theorem numeral_scientific {digits : List Char} (h : AllDigits digits) (k : Int) :
    Numeral (scientific .json digits k) ∧ scientific .json digits k ≠ [] := by
  have hpower := power_exponent k
  match digits with
  | [] => exact ⟨⟨[], _, rfl, h, .inl hpower⟩, List.cons_ne_nil _ _⟩
  | [d] => exact ⟨⟨[d], _, rfl, h, .inl hpower⟩, List.cons_ne_nil _ _⟩
  | d :: e :: rest =>
    have hd : AllDigits [d] := h.sublist (by simp)
    have hrest : AllDigits (e :: rest) := h.sublist (List.sublist_cons_self d _)
    exact ⟨⟨[d], _, rfl, hd, .inr ⟨e :: rest, _, rfl, hrest, hpower⟩⟩, List.cons_ne_nil _ _⟩

theorem allDigits_shortest (x : Binary64) : AllDigits x.shortest.1 := by
  have hall : ∀ n, AllDigits ((Nat.toDigits 10 n).reverse.dropWhile (· == '0')).reverse := by
    intro n c hc
    have hdropped := List.mem_reverse.mp hc
    have hreversed := (List.dropWhile_sublist (· == '0')).subset hdropped
    exact AllDigits.toDigits n c (List.mem_reverse.mp hreversed)
  exact hall _

/-- A number is written as a numeral that its sign may lead. -/
theorem render_eq (x : Binary64) : ∃ cs, (Numeral cs ∧ cs ≠ []) ∧
    x.render .json = if x.negative then '-' :: cs else cs := by
  have hdigits := allDigits_shortest x
  unfold render
  refine ⟨_, ?_, rfl⟩
  split_ifs with hzero
  · have hpoint : Ending ['.', '0'] := .inr ⟨['0'], [], rfl, .zeros 1, .inl rfl⟩
    exact ⟨⟨['0'], _, rfl, .zeros 1, hpoint⟩, List.cons_ne_nil _ _⟩
  · dsimp only
    split_ifs with hrange
    · exact numeral_positional hdigits _
    · exact numeral_scientific hdigits _

end Binary64
end RpcPeer
