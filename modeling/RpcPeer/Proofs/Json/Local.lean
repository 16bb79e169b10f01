import RpcPeer.Proofs.Json.Beginning

/-! Readers look at what they take and hardly further. -/
namespace RpcPeer.Json
open Steps

/-- A number does not go on with this text. -/
def Separate (cs : List Char) : Prop :=
  ∀ c, cs.head? = some c → c.isDigit = false ∧ c ≠ '.' ∧ c ≠ 'e' ∧ c ≠ 'E'

/-- The reader takes these characters for `x`. -/
def Takes {α : Type} (reader : Reader α) (used : List Char) (x : α) : Prop :=
  ∀ rest, Separate rest → reader (used ++ rest) = .ok (x, rest)

/-- A reader that takes what it has read, whatever comes after it. -/
def Local {α : Type} (reader : Reader α) : Prop :=
  ∀ ⦃cs : List Char⦄ ⦃x : α⦄ ⦃rest : List Char⦄, reader cs = .ok (x, rest) →
    ∃ used, used ≠ [] ∧ cs = used ++ rest ∧ Takes reader used x

section
variable {c : Char} {cs ds rest sp : List Char}

theorem skipSpace_spaces (hsp : ∀ b ∈ sp, isSpace b = true) (hc : isSpace c = false)
    (ds : List Char) : skipSpace (sp ++ c :: ds) = c :: ds := by
  rw [skipSpace, List.dropWhile_append_of_pos hsp, List.dropWhile_cons_of_neg (by simp [hc])]

theorem exists_spaces (h : skipSpace cs = c :: ds) :
    ∃ sp, (∀ b ∈ sp, isSpace b = true) ∧ isSpace c = false ∧ cs = sp ++ c :: ds := by
  refine ⟨cs.takeWhile isSpace, fun b hb => List.mem_takeWhile_imp hb, ?_, ?_⟩
  · have hne : cs.dropWhile isSpace ≠ [] := by
      rw [show cs.dropWhile isSpace = c :: ds from h]
      exact List.cons_ne_nil _ _
    have hhead := List.head_dropWhile_not isSpace hne
    simpa [show cs.dropWhile isSpace = c :: ds from h] using hhead
  · rw [← h]
    exact List.takeWhile_append_dropWhile.symm

theorem Separate.nil : Separate [] := nofun

theorem Separate.cons (hc : c.isDigit = false ∧ c ≠ '.' ∧ c ≠ 'e' ∧ c ≠ 'E') :
    Separate (c :: cs) := by
  intro d hd
  cases hd
  exact hc

/-- Only the first character matters. -/
theorem Separate.append (h : Separate (cs ++ ds)) (hcs : cs ≠ []) (rest : List Char) :
    Separate (cs ++ rest) := by
  cases cs with
  | nil => exact absurd rfl hcs
  | cons c cs => exact .cons (h c rfl)

theorem Separate.spaces (hsp : ∀ b ∈ sp, isSpace b = true)
    (hc : c.isDigit = false ∧ c ≠ '.' ∧ c ≠ 'e' ∧ c ≠ 'E') : Separate (sp ++ c :: ds) := by
  cases sp with
  | nil => exact .cons hc
  | cons b sp =>
    have hb := hsp b List.mem_cons_self
    simp only [isSpace, Bool.or_eq_true, beq_iff_eq] at hb
    refine .cons ?_
    rcases hb with ((rfl | rfl) | rfl) | rfl <;> decide

theorem ident_eq_ok {ws : List Char} : ident ws cs = .ok rest ↔ cs = ws ++ rest := by
  induction ws generalizing cs with
  | nil => simp [ident]
  | cons w ws ih =>
    cases cs with
    | nil => simp [ident]
    | cons c cs =>
      by_cases hw : w = c
      · subst hw
        simp [ident, ih]
      · simp [ident, hw, Ne.symm hw]

theorem hexUnit_eq_ok {n : Nat} (h : hexUnit cs = .ok n) : ∃ e t, cs = e ++ t ∧ e.length = 4 ∧
    ∀ t, hexUnit (e ++ t) = .ok n := by
  match cs, h with
  | a :: b :: c :: d :: t, h => exact ⟨[a, b, c, d], t, rfl, rfl, fun _ => h⟩
  | [], h | [_], h | [_, _], h | [_, _, _], h => cases h

theorem lowSurrogate_eq_ok {high : Nat} {d : Char} (h : lowSurrogate high cs = .ok d) :
    ∃ e t, cs = e ++ t ∧ e.length = 6 ∧ ∀ t, lowSurrogate high (e ++ t) = .ok d := by
  unfold lowSurrogate at h
  split at h
  · cases h
  · cases h
  · next ds =>
    obtain ⟨low, hlow, hd⟩ := bind_eq_ok.mp h
    obtain ⟨e, t, rfl, hlen, he⟩ := hexUnit_eq_ok hlow
    refine ⟨'\\' :: 'u' :: e, t, rfl, by simp [hlen], fun t => ?_⟩
    simp only [List.cons_append, lowSurrogate, he, ok_bind]
    exact hd
  · cases h

theorem escaped_eq_ok {d : Char} {n : Nat} (h : escaped cs = .ok (d, n)) :
    ∃ e t, cs = e ++ t ∧ e.length = n ∧ ∀ t, escaped (e ++ t) = .ok (d, n) := by
  unfold escaped at h
  split at h
  case h_10 ds =>
    obtain ⟨unit, hunit, h⟩ := bind_eq_ok.mp h
    obtain ⟨e, t, rfl, hlen, he⟩ := hexUnit_eq_ok hunit
    split at h
    · cases h
    · rename_i hlone
      split at h
      · rename_i hplain
        cases h
        refine ⟨'u' :: e, t, rfl, by simp [hlen], fun t => ?_⟩
        simp only [List.cons_append, escaped, he, ok_bind, hlone, hplain]
        rfl
      · rename_i hpair
        obtain ⟨x, hx, h⟩ := bind_eq_ok.mp h
        cases h
        rw [← hlen, List.drop_left] at hx
        obtain ⟨e', t', rfl, hlen', he'⟩ := lowSurrogate_eq_ok hx
        refine ⟨'u' :: (e ++ e'), t', by simp, by simp [hlen, hlen'], fun t => ?_⟩
        have hdrop : (e ++ (e' ++ t)).drop 4 = e' ++ t := by rw [← hlen, List.drop_left]
        simp only [List.cons_append, List.append_assoc, escaped, he, ok_bind, hlone, hpair, hdrop,
          he']
        rfl
  all_goals cases h
  all_goals exact ⟨[_], _, rfl, rfl, fun _ => rfl⟩

theorem stringBody_eq_ok {skip : Nat} {s : List Char} (h : stringBody skip cs = .ok (s, rest)) :
    ∃ used, cs = used ++ rest ∧ skip < used.length ∧
      ∀ rest, stringBody skip (used ++ rest) = .ok (s, rest) := by
  induction cs generalizing skip s with
  | nil => cases skip <;> cases h
  | cons c cs ih =>
    cases skip with
    | succ skip =>
      obtain ⟨used, rfl, hlen, hused⟩ := ih h
      exact ⟨c :: used, rfl, Nat.succ_lt_succ hlen, hused⟩
    | zero =>
      by_cases hquote : (c == '"') = true
      · rw [stringBody, if_pos hquote] at h
        cases h
        refine ⟨[c], rfl, Nat.zero_lt_one, fun rest => ?_⟩
        rw [List.singleton_append, stringBody, if_pos hquote]
      · by_cases hslash : (c == '\\') = true
        · rw [stringBody, if_neg hquote, if_pos hslash] at h
          obtain ⟨⟨d, n⟩, hd, h⟩ := bind_eq_ok.mp h
          obtain ⟨⟨ds, tail⟩, hds, h⟩ := bind_eq_ok.mp h
          cases h
          obtain ⟨used, rfl, hlen, hused⟩ := ih hds
          obtain ⟨e, t, het, helen, he⟩ := escaped_eq_ok hd
          -- the escape lies within what the body takes
          obtain ⟨t', rfl⟩ : e <+: used :=
            List.prefix_of_prefix_length_le ⟨t, het.symm⟩ (List.prefix_append used rest)
              (helen.trans_le hlen.le)
          refine ⟨c :: (e ++ t'), rfl, Nat.succ_pos _, fun rest => ?_⟩
          have hesc : escaped (e ++ t' ++ rest) = .ok (d, n) := by
            rw [List.append_assoc]
            exact he _
          rw [List.cons_append, stringBody, if_neg hquote, if_pos hslash, hesc, ok_bind]
          dsimp only
          rw [hused, ok_bind]
          rfl
        · by_cases hlow : c.toNat < 32
          · rw [stringBody, if_neg hquote, if_neg hslash, if_pos hlow] at h
            cases h
          · rw [stringBody, if_neg hquote, if_neg hslash, if_neg hlow] at h
            obtain ⟨⟨ds, tail⟩, hds, h⟩ := bind_eq_ok.mp h
            cases h
            obtain ⟨used, rfl, -, hused⟩ := ih hds
            refine ⟨c :: used, rfl, Nat.succ_pos _, fun rest => ?_⟩
            rw [List.cons_append, stringBody, if_neg hquote, if_neg hslash, if_neg hlow, hused,
              ok_bind]
            rfl

theorem string_eq_ok {s : String} (h : string cs = .ok (s, rest)) :
    ∃ used, cs = used ++ rest ∧ ∀ rest, string (used ++ rest) = .ok (s, rest) := by
  obtain ⟨⟨ds, tail⟩, hds, h⟩ := bind_eq_ok.mp h
  cases h
  obtain ⟨used, rfl, -, hused⟩ := stringBody_eq_ok hds
  refine ⟨used, rfl, fun rest => ?_⟩
  rw [string, hused, ok_bind]
  rfl

/-- A text that does not begin with a digit. -/
def NoDigit (cs : List Char) : Prop := ∀ c, cs.head? = some c → c.isDigit = false

/-- The digits before a text that begins with none. -/
theorem span_digits (hds : ∀ c ∈ ds, c.isDigit = true) (hrest : NoDigit rest) :
    (ds ++ rest).takeWhile Char.isDigit = ds ∧ (ds ++ rest).dropWhile Char.isDigit = rest := by
  rw [List.takeWhile_append_of_pos hds, List.dropWhile_append_of_pos hds]
  cases rest with
  | nil => simp
  | cons c rest => simp [hrest c rfl]

/-- Every text begins with some digits, or with none. -/
theorem exists_digits (cs : List Char) : ∃ ds rest, cs = ds ++ rest ∧
    (∀ c ∈ ds, c.isDigit = true) ∧ NoDigit rest := by
  refine ⟨cs.takeWhile Char.isDigit, cs.dropWhile Char.isDigit,
    List.takeWhile_append_dropWhile.symm, fun c hc => List.mem_takeWhile_imp hc, fun c hc => ?_⟩
  cases h : cs.dropWhile Char.isDigit with
  | nil => simp [h] at hc
  | cons d t =>
    have hne : cs.dropWhile Char.isDigit ≠ [] := by simp [h]
    have hhead := List.head_dropWhile_not Char.isDigit hne
    simp only [h, List.head_cons, List.head?_cons, Option.some.injEq] at hhead hc
    exact hc ▸ hhead

theorem NoDigit.nil : NoDigit [] := by
  simp [NoDigit]

theorem NoDigit.cons (hc : c.isDigit = false) : NoDigit (c :: cs) := by
  simp [NoDigit, hc]

theorem Separate.noDigit (h : Separate rest) : NoDigit rest := fun c hc => (h c hc).1

theorem NoDigit.append {used : List Char} (hused : NoDigit used) (hrest : Separate rest) :
    NoDigit (used ++ rest) := by
  cases used with
  | nil => exact hrest.noDigit
  | cons d used => exact fun c hc => hused c hc

end

section
variable {negative : Bool} {digits : Nat} {start : Int} {cs ds rest : List Char} {v : Json}

/-- The number whose exponent has these digits. -/
def withExponent (negative minus : Bool) (digits : Nat) (start : Int) (ds : List Char) :
    Except ReadError Json :=
  if maxExponent < Text.ofDigits ds then
    if digits != 0 && !minus then .error .numberOutOfRange
    else .ok (real { Binary64.zero with negative })
  else
    realOf negative digits
      (start + if minus then -(Text.ofDigits ds : Int) else Text.ofDigits ds)

/-- Reads an exponent after its sign. -/
def afterSign (negative minus : Bool) (digits : Nat) (start : Int) : Reader Json := fun cs => do
  let ds := cs.takeWhile Char.isDigit
  let rest := cs.dropWhile Char.isDigit
  if ds.isEmpty then throw (if rest.isEmpty then .eofInValue else .invalidNumber)
  let e := Text.ofDigits ds
  if maxExponent < e then
    if digits != 0 && !minus then throw .numberOutOfRange
    else return (real { Binary64.zero with negative }, rest)
  let e : Int := if minus then -(e : Int) else e
  return (← realOf negative digits (start + e), rest)

theorem afterSign_digits {minus : Bool} (hds : ∀ c ∈ ds, c.isDigit = true) (hne : ds ≠ [])
    (hrest : NoDigit rest) :
    afterSign negative minus digits start (ds ++ rest) =
      (withExponent negative minus digits start ds).map fun v => (v, rest) := by
  obtain ⟨htake, hdrop⟩ := span_digits hds hrest
  have hempty : ds.isEmpty = false := by simpa using hne
  unfold afterSign withExponent
  simp only [htake, hdrop, hempty]
  by_cases hlarge : maxExponent < Text.ofDigits ds
  · simp only [hlarge, if_true]
    cases digits != 0 && !minus <;> rfl
  · simp only [hlarge, if_false]
    cases realOf negative digits
      (start + if minus then -(Text.ofDigits ds : Int) else Text.ofDigits ds) <;> rfl

theorem takes_of_afterSign {minus : Bool}
    (h : afterSign negative minus digits start cs = .ok (v, rest)) :
    ∃ c ds, c.isDigit = true ∧ cs = c :: ds ++ rest ∧
      Takes (afterSign negative minus digits start) (c :: ds) v := by
  obtain ⟨ds, tail, rfl, hds, htail⟩ := exists_digits cs
  cases ds with
  | nil =>
    obtain ⟨htake, -⟩ := span_digits hds htail
    simp only [afterSign, htake] at h
    cases h
  | cons c ds =>
    rw [afterSign_digits hds (List.cons_ne_nil c ds) htail] at h
    obtain ⟨w, hw, hwr⟩ := map_eq_ok.mp h
    cases hwr
    refine ⟨c, ds, hds c List.mem_cons_self, rfl, fun t ht => ?_⟩
    rw [afterSign_digits hds (List.cons_ne_nil c ds) ht.noDigit, hw]
    rfl

theorem exponentPart_sign (minus : Bool) (cs : List Char) :
    exponentPart negative digits start ((if minus then '-' else '+') :: cs) =
      afterSign negative minus digits start cs := by
  cases minus <;> rfl

theorem exponentPart_unsigned (h : ∀ c, cs.head? = some c → c ≠ '+' ∧ c ≠ '-') :
    exponentPart negative digits start cs = afterSign negative false digits start cs := by
  unfold exponentPart
  split
  next minus ds heq =>
    have hsame : (minus, ds) = (false, cs) := by
      rw [← heq]
      split
      · exact absurd rfl (h _ rfl).1
      · exact absurd rfl (h _ rfl).2
      · rfl
    cases hsame
    rfl

theorem takes_of_exponentPart (h : exponentPart negative digits start cs = .ok (v, rest)) :
    ∃ used, cs = used ++ rest ∧ Takes (exponentPart negative digits start) used v := by
  by_cases hsign : ∃ (minus : Bool) (t : List Char), cs = (if minus then '-' else '+') :: t
  · obtain ⟨minus, t, rfl⟩ := hsign
    rw [exponentPart_sign] at h
    obtain ⟨c, ds, -, rfl, htakes⟩ := takes_of_afterSign h
    refine ⟨(if minus then '-' else '+') :: c :: ds, rfl, fun t ht => ?_⟩
    rw [List.cons_append, exponentPart_sign]
    exact htakes t ht
  · have hhead : ∀ c, cs.head? = some c → c ≠ '+' ∧ c ≠ '-' := by
      intro c hc
      obtain ⟨t, rfl⟩ := List.head?_eq_some_iff.mp hc
      constructor
      · rintro rfl
        exact hsign ⟨false, t, rfl⟩
      · rintro rfl
        exact hsign ⟨true, t, rfl⟩
    rw [exponentPart_unsigned hhead] at h
    obtain ⟨c, ds, -, rfl, htakes⟩ := takes_of_afterSign h
    refine ⟨c :: ds, rfl, fun t ht => ?_⟩
    have hunsigned : ∀ d, (c :: ds ++ t).head? = some d → d ≠ '+' ∧ d ≠ '-' := hhead
    rw [exponentPart_unsigned hunsigned]
    exact htakes t ht

/-- Reads what may stand behind the last digit before an exponent. -/
def afterDigits (negative : Bool) (digits : Nat) (start : Int) : Reader Json := fun rest =>
  match rest with
  | 'e' :: rest | 'E' :: rest => exponentPart negative digits start rest
  | rest => do return (← realOf negative digits start, rest)

theorem takes_of_afterDigits (h : afterDigits negative digits start cs = .ok (v, rest)) :
    ∃ used, cs = used ++ rest ∧ NoDigit used ∧
      Takes (afterDigits negative digits start) used v := by
  unfold afterDigits at h
  split at h
  next t =>
    obtain ⟨used, rfl, htakes⟩ := takes_of_exponentPart h
    exact ⟨'e' :: used, rfl, .cons rfl, htakes⟩
  next t =>
    obtain ⟨used, rfl, htakes⟩ := takes_of_exponentPart h
    exact ⟨'E' :: used, rfl, .cons rfl, htakes⟩
  next =>
    obtain ⟨w, hw, hwr⟩ := bind_eq_ok.mp h
    cases hwr
    refine ⟨[], rfl, .nil, fun r hr => ?_⟩
    rw [List.nil_append]
    unfold afterDigits
    split
    next => exact absurd rfl (hr _ rfl).2.2.1
    next => exact absurd rfl (hr _ rfl).2.2.2
    next => simp only [hw, ok_bind, pure_eq]

theorem fractionPart_digits (hds : ∀ c ∈ ds, c.isDigit = true) (hne : ds ≠ [])
    (hrest : NoDigit rest) :
    fractionPart negative digits start (ds ++ rest) =
      afterDigits negative (gather digits ds).1
        (start - (ds.length - (gather digits ds).2 : Nat)) rest := by
  obtain ⟨htake, hdrop⟩ := span_digits hds hrest
  have hempty : ds.isEmpty = false := by simpa using hne
  unfold fractionPart
  simp only [htake, hdrop, hempty]
  rfl

theorem takes_of_fractionPart (h : fractionPart negative digits start cs = .ok (v, rest)) :
    ∃ used, cs = used ++ rest ∧ Takes (fractionPart negative digits start) used v := by
  obtain ⟨ds, tail, rfl, hds, htail⟩ := exists_digits cs
  by_cases hne : ds = []
  · subst hne
    obtain ⟨htake, -⟩ := span_digits hds htail
    simp only [fractionPart, htake] at h
    cases h
  · rw [fractionPart_digits hds hne htail] at h
    obtain ⟨used, rfl, hused, htakes⟩ := takes_of_afterDigits h
    refine ⟨ds ++ used, (List.append_assoc _ _ _).symm, fun r hr => ?_⟩
    rw [List.append_assoc, fractionPart_digits hds hne (hused.append hr)]
    exact htakes r hr

/-- The whole number with these digits. -/
def wholeNumber (negative : Bool) (ds : List Char) : Except ReadError Json :=
  let (digits, extra) := gather 0 ds
  if extra == 0 && !negative then .ok (int digits)
  else if extra == 0 && digits != 0 && digits ≤ 9223372036854775808 then .ok (int (-digits))
  else realOf negative digits extra

/-- Reads what may stand behind the digits of a whole number. -/
def afterWhole (negative : Bool) (ds : List Char) : Reader Json := fun rest =>
  let (digits, extra) := gather 0 ds
  match rest with
  | '.' :: rest => fractionPart negative digits extra rest
  | 'e' :: rest | 'E' :: rest => exponentPart negative digits extra rest
  | rest =>
    if extra == 0 && !negative then return (int digits, rest)
    else if extra == 0 && digits != 0 && digits ≤ 9223372036854775808 then
      return (int (-digits), rest)
    else return (← realOf negative digits extra, rest)

theorem afterWhole_end (negative : Bool) (ds : List Char)
    (h : ∀ c, rest.head? = some c → c ≠ '.' ∧ c ≠ 'e' ∧ c ≠ 'E') :
    afterWhole negative ds rest = (wholeNumber negative ds).map fun v => (v, rest) := by
  unfold afterWhole wholeNumber
  dsimp only
  split
  next => exact absurd rfl (h _ rfl).1
  next => exact absurd rfl (h _ rfl).2.1
  next => exact absurd rfl (h _ rfl).2.2
  next =>
    split_ifs
    · rfl
    · rfl
    · cases realOf negative (gather 0 ds).1 (gather 0 ds).2 <;> rfl

theorem takes_of_afterWhole (h : afterWhole negative ds cs = .ok (v, rest)) :
    ∃ used, cs = used ++ rest ∧ NoDigit used ∧
      Takes (afterWhole negative ds) used v := by
  by_cases hend : ∀ c, cs.head? = some c → c ≠ '.' ∧ c ≠ 'e' ∧ c ≠ 'E'
  · rw [afterWhole_end negative ds hend] at h
    obtain ⟨w, hw, hwr⟩ := map_eq_ok.mp h
    cases hwr
    refine ⟨[], rfl, .nil, fun r hr => ?_⟩
    rw [List.nil_append, afterWhole_end negative ds fun c hc => (hr c hc).2, hw]
    rfl
  · obtain ⟨c, t, rfl, hc⟩ : ∃ c t, cs = c :: t ∧ (c = '.' ∨ c = 'e' ∨ c = 'E') := by
      cases cs with
      | nil => exact absurd (by simp) hend
      | cons c t =>
        refine ⟨c, t, rfl, ?_⟩
        by_contra hc
        exact hend fun d hd => by
          cases hd
          simpa only [not_or] using hc
    rcases hc with rfl | rfl | rfl
    · obtain ⟨used, rfl, htakes⟩ := takes_of_fractionPart h
      exact ⟨'.' :: used, rfl, .cons rfl, htakes⟩
    · obtain ⟨used, rfl, htakes⟩ := takes_of_exponentPart h
      exact ⟨'e' :: used, rfl, .cons rfl, htakes⟩
    · obtain ⟨used, rfl, htakes⟩ := takes_of_exponentPart h
      exact ⟨'E' :: used, rfl, .cons rfl, htakes⟩

/-- Goes on behind the leading digits of a number, unless these are refused. -/
def afterLeading (negative : Bool) (ds : List Char) : Reader Json := fun rest =>
  match ds with
  | [] => throw (if rest.isEmpty then .eofInValue else .invalidNumber)
  | '0' :: _ :: _ => throw .invalidNumber
  | ds => afterWhole negative ds rest

theorem number_digits (negative : Bool) (hds : ∀ c ∈ ds, c.isDigit = true) (hrest : NoDigit rest) :
    number negative (ds ++ rest) = afterLeading negative ds rest := by
  obtain ⟨htake, hdrop⟩ := span_digits hds hrest
  unfold number afterLeading
  simp only [htake, hdrop]
  rfl

theorem afterLeading_cases (negative : Bool) (ds : List Char) :
    (∀ rest, ∃ e, afterLeading negative ds rest = .error e) ∨
      ds ≠ [] ∧ ∀ rest, afterLeading negative ds rest = afterWhole negative ds rest := by
  by_cases hne : ds = []
  · subst hne
    exact .inl fun rest => ⟨_, rfl⟩
  · by_cases hzero : ∃ c t, ds = '0' :: c :: t
    · obtain ⟨c, t, rfl⟩ := hzero
      exact .inl fun rest => ⟨_, rfl⟩
    · refine .inr ⟨hne, fun rest => ?_⟩
      unfold afterLeading
      split
      next => exact absurd rfl hne
      next => exact absurd ⟨_, _, rfl⟩ hzero
      next => rfl

theorem local_number (negative : Bool) : Local (number negative) := by
  intro cs v rest h
  obtain ⟨ds, tail, rfl, hds, htail⟩ := exists_digits cs
  rw [number_digits negative hds htail] at h
  rcases afterLeading_cases negative ds with hbad | ⟨hne, hread⟩
  · obtain ⟨e, he⟩ := hbad tail
    cases he.symm.trans h
  · rw [hread tail] at h
    obtain ⟨used, rfl, hused, htakes⟩ := takes_of_afterWhole h
    refine ⟨ds ++ used, by simp [hne], (List.append_assoc _ _ _).symm, fun r hr => ?_⟩
    rw [List.append_assoc, number_digits negative hds (hused.append hr), hread]
    exact htakes r hr

end
end RpcPeer.Json
