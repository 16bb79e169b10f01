import RpcPeer.Proofs.Json.Passing
import RpcPeer.Proofs.Json.RoundTrip

/-! Texts that break off, and the members read of them. -/
namespace RpcPeer.Json
open Steps

section
variable {negative : Bool} {cs ds rest : List Char} {n : Int}

theorem gather_whole {m : Nat} (h : (gather m ds).2 = 0) :
    (gather m ds).1 = Nat.ofDigitChars 10 ds m := by
  induction ds generalizing m with
  | nil => rfl
  | cons c ds ih =>
    rw [Nat.ofDigitChars_cons]
    rw [gather] at h ⊢
    split_ifs at h ⊢ with hm
    · exact ih h

theorem afterWhole_eq_int (h : afterWhole negative ds cs = .ok (int n, rest)) :
    rest = cs ∧ (∀ c, cs.head? = some c → c ≠ '.' ∧ c ≠ 'e' ∧ c ≠ 'E') ∧
      n = (if negative then -(Text.ofDigits ds : Int) else Text.ofDigits ds) ∧
      (negative = true → Text.ofDigits ds ≠ 0) := by
  unfold afterWhole at h
  dsimp only at h
  split at h
  next => exact (isReal_fractionPart h).elim
  next => exact (isReal_exponentPart h).elim
  next => exact (isReal_exponentPart h).elim
  next hdot hlow hup =>
    have hhead : ∀ c, cs.head? = some c → c ≠ '.' ∧ c ≠ 'e' ∧ c ≠ 'E' := by
      intro c hc
      obtain ⟨t, rfl⟩ := List.head?_eq_some_iff.mp hc
      exact ⟨fun he => hdot t (he ▸ rfl), fun he => hlow t (he ▸ rfl), fun he => hup t (he ▸ rfl)⟩
    split_ifs at h with hplain hminus
    · simp only [Bool.and_eq_true, beq_iff_eq, Bool.not_eq_true'] at hplain
      obtain ⟨hextra, rfl⟩ := hplain
      cases h
      rw [Text.ofDigits_eq, ← gather_whole hextra]
      exact ⟨rfl, hhead, rfl, nofun⟩
    · simp only [Bool.and_eq_true, beq_iff_eq, bne_iff_ne, decide_eq_true_eq] at hminus
      obtain ⟨⟨hextra, hpos⟩, -⟩ := hminus
      have hneg : negative = true := by
        cases negative with
        | true => rfl
        | false => exact absurd (by simp [hextra]) hplain
      cases h
      rw [Text.ofDigits_eq, ← gather_whole hextra, hneg]
      exact ⟨rfl, hhead, rfl, fun _ => hpos⟩
    · exact (isReal_of_realOf_bind h).elim

theorem number_eq_int (h : number negative cs = .ok (int n, rest)) :
    ∃ k : Nat, n = (if negative then -(k : Int) else k) ∧ (negative = true → k ≠ 0) ∧
      cs = Nat.toDigits 10 k ++ rest ∧ Separate rest := by
  obtain ⟨ds, tail, rfl, hds, htail⟩ := exists_digits cs
  rw [number_digits negative hds htail] at h
  unfold afterLeading at h
  split at h
  next => cases h
  next => cases h
  next hne hlead =>
    obtain ⟨rfl, hhead, hn, hpos⟩ := afterWhole_eq_int h
    refine ⟨Text.ofDigits ds, hn, hpos, ?_, fun c hc => ⟨htail c hc, hhead c hc⟩⟩
    rw [Text.toDigits_ofDigits hds hne fun c cs hcs => hlead c cs hcs]

theorem printInt_of_sign {k : Nat} (hn : n = (if negative then -(k : Int) else k))
    (hpos : negative = true → k ≠ 0) :
    printInt n = if negative then '-' :: Nat.toDigits 10 k else Nat.toDigits 10 k := by
  subst hn
  cases negative with
  | false => simp [printInt]
  | true =>
    have hk := hpos rfl
    simp [printInt, Nat.pos_of_ne_zero hk]

/-- A whole number has been read off its numeral, behind which no number goes on. -/
theorem value_eq_int {depth : Nat} (h : value depth cs = .ok (int n, rest)) :
    ∃ sp, (∀ b ∈ sp, isSpace b = true) ∧ cs = sp ++ (printInt n ++ rest) ∧ Separate rest := by
  obtain ⟨c, t, hs, hb⟩ := begins_of_value h
  obtain ⟨sp, hsp, hc, rfl⟩ := exists_spaces hs
  obtain ⟨nested, hn⟩ := value_eq_valueOver depth
  rw [hn, valueOver_spaces nested hsp hc] at h
  refine ⟨sp, hsp, ?_⟩
  cases hb with
  | number start =>
    simp only [Shape.startsNumber, Bool.or_eq_true, beq_iff_eq] at start
    rcases start with rfl | hdigit
    · obtain ⟨k, hk, hpos, rfl, hsep⟩ :=
        number_eq_int (h : number true t = .ok (int n, rest))
      exact ⟨by simp [printInt_of_sign hk hpos], hsep⟩
    · rw [valueOver_digit hdigit] at h
      obtain ⟨k, hk, hpos, hcs, hsep⟩ := number_eq_int h
      exact ⟨by simp [printInt_of_sign hk hpos, hcs], hsep⟩

end

section
variable {depth : Nat} {cs tail rest rest' : List Char} {v w : Json} {k n : Int}

theorem printInt_cons (n : Int) : ∃ c t, printInt n = c :: t ∧ isSpace c = false ∧
    ∀ d ∈ t, d.isDigit = true := by
  unfold printInt
  split_ifs
  · exact ⟨'-', _, rfl, by decide, fun d hd => Text.isDigit_of_mem_toDigits hd⟩
  · obtain ⟨c, t, hds, hc⟩ := toDigits_cons n.natAbs
    refine ⟨c, t, hds, isSpace_of_isDigit hc, fun d hd => ?_⟩
    exact Text.isDigit_of_mem_toDigits (n := n.natAbs) (hds ▸ .tail c hd)

/-- More text behind a number makes another number of it, if it makes anything else of it. -/
theorem isNumber_append (hv : value depth cs = .ok (v, rest)) (hn : v.IsNumber)
    (hw : value depth (cs ++ tail) = .ok (w, rest')) : w.IsNumber := by
  obtain ⟨c, t, hs, hb⟩ := begins_of_value hv
  obtain ⟨c', t', hs', hb'⟩ := begins_of_value hw
  obtain ⟨sp, hsp, hc, rfl⟩ := exists_spaces hs
  rw [List.append_assoc, List.cons_append, skipSpace_spaces hsp hc] at hs'
  cases hs'
  cases hb with
  | number start =>
    cases hb' with
    | number _ hnumber => exact hnumber
    | _ => exact absurd start (by decide)
  | _ => exact hn.elim

/-- If a whole number becomes another one by more text behind it, the text ends with its numeral,
with which the numeral of the other one begins. -/
theorem printInt_append (hk : value depth cs = .ok (int k, rest))
    (hn : value depth (cs ++ tail) = .ok (int n, rest')) (hne : k ≠ n) :
    rest = [] ∧ printInt k <+: printInt n ∧ ∃ sp, cs = sp ++ printInt k ∧
      cs ++ tail = sp ++ (printInt n ++ rest') := by
  obtain ⟨sp, hsp, hcs, hsep⟩ := value_eq_int hk
  obtain ⟨sp', hsp', hcs', hsep'⟩ := value_eq_int hn
  obtain rfl : rest = [] := by
    by_contra hrest
    have hgoes : Separate (rest ++ []) := by rwa [List.append_nil]
    cases hn.symm.trans (value_append hk fun _ => hgoes.append hrest tail)
    exact hne rfl
  rw [List.append_nil] at hcs
  obtain ⟨c, t, hc, hspace, hdigits⟩ := printInt_cons k
  obtain ⟨c', t', hc', hspace', -⟩ := printInt_cons n
  -- behind the same blanks
  have hboth : printInt k ++ tail = printInt n ++ rest' := by
    have hskip : skipSpace (cs ++ tail) = printInt k ++ tail := by
      rw [hcs, hc, List.append_assoc, List.cons_append, skipSpace_spaces hsp hspace]
    rw [← hskip, hcs', hc', List.cons_append, skipSpace_spaces hsp' hspace']
  refine ⟨rfl, ?_, sp, hcs, by rw [hcs, List.append_assoc, hboth]⟩
  have hprefix : printInt n <+: printInt k ++ tail := hboth ▸ List.prefix_append _ _
  rcases List.prefix_or_prefix_of_prefix (List.prefix_append _ tail) hprefix with h | ⟨e, he⟩
  · exact h
  · cases e with
    | nil => exact ⟨[], by rw [← he, List.append_nil, List.append_nil]⟩
    | cons d e =>
      -- the longer numeral would go on behind the end of the other
      rw [← he, List.append_assoc] at hboth
      have hrest : d :: (e ++ tail) = rest' := List.append_cancel_left hboth
      have hd : d ∈ t := by
        rw [hc, hc', List.cons_append] at he
        rw [← (List.cons.inj he).2]
        simp
      cases (hdigits d hd).symm.trans (hsep' d (by rw [← hrest]; rfl)).1

end

section
variable {depth n : Nat} {first : Bool} {cs cs₁ cs₂ cs₃ tail rest rest' : List Char}
  {name k : String} {x v : Json} {ms ns : List (String × Json)}

/-- Where a member begins, more text at the end leaves its name as it is. -/
theorem membersWithin_append (hkey : nextKey first cs = .ok (some k, cs₁))
    (hcolon : colon cs₁ = .ok ((), cs₂))
    (hall : membersWithin (value depth) n first (cs ++ tail) = .ok (ns, rest')) :
    ∃ y rounds cs' ns', value depth (cs₂ ++ tail) = .ok (y, cs') ∧
      membersWithin (value depth) rounds false cs' = .ok (ns', rest') ∧ ns = (k, y) :: ns' := by
  cases n with
  | zero => cases hall
  | succ rounds =>
    obtain ⟨used₀, -, rfl, -, hkey'⟩ := nextKey_eq_ok hkey
    obtain ⟨used₁, rfl, hcolon'⟩ := colon_eq_ok hcolon
    simp only [List.append_assoc] at hall
    rcases membersWithin_cases hall with ⟨_, hnone, -⟩ |
      ⟨k', y, ns', _, _, cs', hkey₂, hcolon₂, hy, hrest, hns⟩
    · cases (hkey' _).symm.trans hnone
    · cases (hkey' _).symm.trans hkey₂
      cases (hcolon' _).symm.trans hcolon₂
      exact ⟨y, rounds, cs', ns', hy, hrest, hns⟩

/-- A value before another member is the same in every longer text. -/
theorem value_append_of_passes (hx : value depth cs = .ok (x, cs₁))
    (hrest : Passes (value depth) false cs₁ ms rest) :
    (∀ tail, value depth (cs ++ tail) = .ok (x, cs₁ ++ tail)) ∨
      x.IsNumber ∧ ms = [] ∧ rest = cs₁ := by
  cases hrest with
  | done =>
    by_cases hn : x.IsNumber
    · exact .inr ⟨hn, rfl, rfl⟩
    · exact .inl fun tail => value_append hx fun h => absurd h hn
  | member hkey =>
    obtain ⟨used, hne, rfl, hsep, -⟩ := nextKey_eq_ok hkey
    refine .inl fun tail => value_append hx fun _ => ?_
    rw [List.append_assoc]
    exact (hsep rfl).append hne _

theorem names_of_passes (hp : Passes (value depth) first cs ms rest)
    (hall : membersWithin (value depth) n first (cs ++ tail) = .ok (ns, rest')) :
    ms.map (·.1) <+: ns.map (·.1) := by
  induction hp generalizing n ns with
  | done => exact List.nil_prefix
  | member hkey hcolon hx hrest ih =>
    obtain ⟨y, rounds, cs', ns', hy, hmore, rfl⟩ := membersWithin_append hkey hcolon hall
    refine List.cons_prefix_cons.mpr ⟨rfl, ?_⟩
    rcases value_append_of_passes hx hrest with hsame | ⟨-, rfl, -⟩
    · cases (hsame tail).symm.trans hy
      exact ih hmore
    · exact List.nil_prefix

/-- What the members before the break say under a name, the whole text says as well, unless this is
a number that stands right before the break. -/
theorem lookup_of_passes (hp : Passes (value depth) first cs ms rest)
    (hall : membersWithin (value depth) n first (cs ++ tail) = .ok (ns, rest'))
    (hv : ms.lookup name = some v) :
    ns.lookup name = some v ∨
      v.IsNumber ∧ ∃ w front cs₂ rest₂, ns.lookup name = some w ∧ cs = front ++ cs₂ ∧
        value depth cs₂ = .ok (v, rest) ∧ value depth (cs₂ ++ tail) = .ok (w, rest₂) := by
  induction hp generalizing n ns with
  | done => cases hv
  | @member first k x ms cs cs₁ cs₂ cs₃ rest hkey hcolon hx hrest ih =>
    obtain ⟨y, rounds, cs', ns', hy, hmore, rfl⟩ := membersWithin_append hkey hcolon hall
    obtain ⟨used₀, -, rfl, -⟩ := nextKey_eq_ok hkey
    obtain ⟨used₁, rfl, -⟩ := colon_eq_ok hcolon
    rw [lookup_cons_eq] at hv ⊢
    rcases value_append_of_passes hx hrest with hsame | ⟨hnum, rfl, rfl⟩
    · cases (hsame tail).symm.trans hy
      by_cases hname : name = k
      · rw [if_pos hname] at hv ⊢
        exact .inl hv
      · rw [if_neg hname] at hv ⊢
        rcases ih hmore hv with hin | ⟨hn, w, front, cs', rest₂, hw, rfl, hv, hw'⟩
        · exact .inl hin
        · obtain ⟨used₂, -, hcs, -⟩ := local_value depth hx
          refine .inr ⟨hn, w, used₀ ++ (used₁ ++ (used₂ ++ front)), cs', rest₂, hw, ?_, hv, hw'⟩
          rw [hcs]
          simp only [List.append_assoc]
    · by_cases hname : name = k
      · rw [if_pos hname] at hv ⊢
        cases hv
        exact .inr ⟨hnum, y, used₀ ++ used₁, cs₂, cs', rfl, (List.append_assoc ..).symm, hx, hy⟩
      · rw [if_neg hname] at hv
        cases hv

end

end RpcPeer.Json
