import RpcPeer.Proofs.Json.Numeral
import RpcPeer.Proofs.Json.Object

/-! A tree without real numbers is read back from its text. -/
namespace RpcPeer.Json
open Steps

/-- A tree of at most `depth` levels without real numbers. Integers are those that a literal gives,
and members come in the order of their names. -/
inductive Plain : Nat → Json → Prop
  | null {depth : Nat} : Plain depth null
  | bool {depth : Nat} {b : Bool} : Plain depth (bool b)
  | int {depth : Nat} {n : Int} (least : -9223372036854775808 ≤ n)
      (greatest : n < 18446744073709551616) : Plain depth (int n)
  | str {depth : Nat} {s : String} : Plain depth (str s)
  | arr {depth : Nat} {xs : List Json} (items : ∀ x ∈ xs, Plain depth x) :
    Plain (depth + 1) (arr xs)
  | obj {depth : Nat} {ms : List (String × Json)} (order : InOrder ms)
      (members : ∀ m ∈ ms, Plain depth m.2) : Plain (depth + 1) (obj ms)

theorem stringBody_skip (e cs : List Char) :
    stringBody e.length (e ++ cs) = stringBody 0 cs := by
  induction e with
  | nil => rfl
  | cons c e ih => exact ih

theorem hexValue?_hexDigit (n : Nat) : hexValue? (hexDigit n) = some (n % 16) := by
  have h : ∀ k < 16, hexValue? (Nat.digitChar k) = some k := by decide
  exact h _ (Nat.mod_lt n (by decide))

/-- A character stands for itself, or for itself behind a backslash. -/
theorem escape_cases (c : Char) :
    (escape c = [c] ∧ c ≠ '"' ∧ c ≠ '\\' ∧ 32 ≤ c.toNat) ∨
      ∃ e, escape c = '\\' :: e ∧ ∀ cs, escaped (e ++ cs) = .ok (c, e.length) := by
  unfold escape
  split_ifs with h1 h2 h3 h4 h5 h6 h7 h8
  · have hc := eq_of_beq h1
    subst hc
    exact .inr ⟨['"'], rfl, fun cs => rfl⟩
  · have hc := eq_of_beq h2
    subst hc
    exact .inr ⟨['\\'], rfl, fun cs => rfl⟩
  · exact .inr ⟨['b'], rfl, fun cs => eq_of_beq h3 ▸ rfl⟩
  · exact .inr ⟨['f'], rfl, fun cs => eq_of_beq h4 ▸ rfl⟩
  · exact .inr ⟨['n'], rfl, fun cs => eq_of_beq h5 ▸ rfl⟩
  · exact .inr ⟨['r'], rfl, fun cs => eq_of_beq h6 ▸ rfl⟩
  · exact .inr ⟨['t'], rfl, fun cs => eq_of_beq h7 ▸ rfl⟩
  · refine .inr ⟨['u', '0', '0', hexDigit (c.toNat / 16), hexDigit c.toNat], rfl, fun cs => ?_⟩
    have hunit : hexUnit ('0' :: '0' :: hexDigit (c.toNat / 16) :: hexDigit c.toNat :: cs) =
        .ok c.toNat := by
      have hz : hexValue? '0' = some 0 := by decide
      simp only [hexUnit, hz, hexValue?_hexDigit]
      congr 1
      omega
    have hlow : ¬ (0xDC00 ≤ c.toNat && c.toNat ≤ 0xDFFF) = true := by
      simp only [Bool.and_eq_true, decide_eq_true_eq]
      omega
    have hhigh : (c.toNat < 0xD800 || 0xDBFF < c.toNat) = true := by
      simp only [Bool.or_eq_true, decide_eq_true_eq]
      omega
    simp only [List.cons_append, List.nil_append, escaped, hunit]
    change (if _ then _ else if _ then _ else _) = _
    rw [if_neg hlow, if_pos hhigh, Char.ofNat_toNat]
    rfl
  · refine .inl ⟨rfl, fun h => h1 (by simp [h]), fun h => h2 (by simp [h]), by omega⟩

theorem stringBody_escape (c : Char) (cs : List Char) :
    stringBody 0 (escape c ++ cs) =
      (stringBody 0 cs).map fun (ds, rest) => (c :: ds, rest) := by
  rcases escape_cases c with ⟨he, hquote, hslash, hlow⟩ | ⟨e, he, hread⟩
  · have h1 : ¬ (c == '"') = true := fun h => hquote (eq_of_beq h)
    have h2 : ¬ (c == '\\') = true := fun h => hslash (eq_of_beq h)
    have h3 : ¬ c.toNat < 32 := Nat.not_lt.mpr hlow
    rw [he, List.singleton_append, stringBody, if_neg h1, if_neg h2, if_neg h3]
    cases stringBody 0 cs <;> rfl
  · have h1 : ¬ ('\\' == '"') = true := by decide
    have h2 : ('\\' == '\\') = true := by decide
    rw [he, List.cons_append, stringBody, if_neg h1, if_pos h2, hread, ← stringBody_skip e cs]
    change (do let (ds, rest) ← stringBody e.length (e ++ cs); return (c :: ds, rest)) = _
    cases stringBody e.length (e ++ cs) <;> rfl

theorem stringBody_flatMap_escape (cs rest : List Char) :
    stringBody 0 (cs.flatMap escape ++ '"' :: rest) = .ok (cs, rest) := by
  induction cs with
  | nil => rfl
  | cons c cs ih =>
    rw [List.flatMap_cons, List.append_assoc, stringBody_escape, ih]
    rfl

theorem string_flatMap_escape (s : String) (rest : List Char) :
    string (s.toList.flatMap escape ++ '"' :: rest) = .ok (s, rest) := by
  unfold string
  rw [stringBody_flatMap_escape]
  change Except.ok (String.ofList s.toList, rest) = _
  rw [String.ofList_toList]

/-- What follows a value inside a list or an object, or at the end of a text. -/
def Delimited (rest : List Char) : Prop := ∀ c ∈ rest.head?, c = ',' ∨ c = ']' ∨ c = '\x7d'

theorem Delimited.cons {c : Char} {cs : List Char} (h : c = ',' ∨ c = ']' ∨ c = '\x7d') :
    Delimited (c :: cs) := by
  intro d hd
  cases hd
  exact h

theorem Delimited.cases {rest : List Char} (h : Delimited rest) :
    rest = [] ∨ ∃ cs, rest = ',' :: cs ∨ rest = ']' :: cs ∨ rest = '\x7d' :: cs := by
  cases rest with
  | nil => exact .inl rfl
  | cons c cs => exact .inr ⟨cs, by simpa using h c rfl⟩

theorem le_ofDigitChars (ds : List Char) (n : Nat) : n ≤ Nat.ofDigitChars 10 ds n := by
  rw [Nat.ofDigitChars_eq_ofDigitChars_zero]
  have hpos : 1 ≤ 10 ^ ds.length := Nat.one_le_pow _ _ (by decide)
  calc n = 1 * n := (Nat.one_mul n).symm
    _ ≤ 10 ^ ds.length * n := Nat.mul_le_mul_right n hpos
    _ ≤ _ := Nat.le_add_right _ _

theorem gather_eq {n : Nat} {ds : List Char}
    (h : Nat.ofDigitChars 10 ds n < 18446744073709551616) :
    gather n ds = (Nat.ofDigitChars 10 ds n, 0) := by
  induction ds generalizing n with
  | nil => rfl
  | cons c ds ih =>
    rw [Nat.ofDigitChars_cons] at h ⊢
    have hm : 10 * n + Text.digitValue c < 18446744073709551616 :=
      Nat.lt_of_le_of_lt (le_ofDigitChars ds _) h
    rw [gather, if_pos hm]
    exact ih h

/-- A numeral has no leading zero. -/
theorem toDigits_ne_zero_cons (n : Nat) (c : Char) (cs : List Char) :
    Nat.toDigits 10 n ≠ '0' :: c :: cs := by
  induction n using Nat.strongRecOn generalizing c cs with
  | ind n ih =>
    intro h
    rcases Nat.lt_or_ge n 10 with hlt | hge
    · rw [Nat.toDigits_of_lt_base hlt] at h
      exact List.cons_ne_nil c cs (List.cons.inj h).2.symm
    · rw [Nat.toDigits_of_base_le (by decide) hge] at h
      have hval := Nat.ofDigitChars_ten_toDigits (n := n / 10)
      match hd : Nat.toDigits 10 (n / 10) with
      | [] => exact Nat.toDigits_ne_nil hd
      | [d] =>
        rw [hd] at h hval
        have hzero : d = '0' := (List.cons.inj h).1
        subst hzero
        have : n / 10 = 0 := hval.symm
        omega
      | d :: e :: ds =>
        rw [hd] at h
        have hzero : d = '0' := (List.cons.inj h).1
        exact ih (n / 10) (by omega) e ds (hzero ▸ hd)

theorem number_toDigits {n : Nat} {rest : List Char} (negative : Bool)
    (hn : n < 18446744073709551616) (hneg : negative = true → n ≠ 0 ∧ n ≤ 9223372036854775808)
    (hr : Delimited rest) :
    number negative (Nat.toDigits 10 n ++ rest) =
      .ok (int (if negative then -n else n), rest) := by
  have hdigits : ∀ c ∈ Nat.toDigits 10 n, c.isDigit = true :=
    fun c hc => Text.isDigit_of_mem_toDigits hc
  have hgather : gather 0 (Nat.toDigits 10 n) = (n, 0) := by
    have hval := Nat.ofDigitChars_ten_toDigits (n := n)
    rw [gather_eq (hval.symm ▸ hn), hval]
  have hrest : rest.takeWhile Char.isDigit = [] ∧ rest.dropWhile Char.isDigit = rest := by
    rcases hr.cases with rfl | ⟨cs, rfl | rfl | rfl⟩ <;> exact ⟨rfl, rfl⟩
  have htake : (Nat.toDigits 10 n ++ rest).takeWhile Char.isDigit = Nat.toDigits 10 n := by
    rw [List.takeWhile_append_of_pos hdigits, hrest.1, List.append_nil]
  have hdrop : (Nat.toDigits 10 n ++ rest).dropWhile Char.isDigit = rest := by
    rw [List.dropWhile_append_of_pos hdigits, hrest.2]
  unfold number
  simp only [htake, hdrop]
  -- there are digits, they have no leading zero, and what comes next does not go on with the number
  split
  next h => exact absurd h Nat.toDigits_ne_nil
  next c cs h => exact absurd h (toDigits_ne_zero_cons n c cs)
  next =>
    rw [hgather]
    cases negative with
    | false => rcases hr.cases with rfl | ⟨cs, rfl | rfl | rfl⟩ <;> rfl
    | true =>
      obtain ⟨hpos, hle⟩ := hneg rfl
      rcases hr.cases with rfl | ⟨cs, rfl | rfl | rfl⟩ <;> simp [hpos, hle] <;> rfl

theorem printItems_cons (x : Json) (xs : List Json) :
    printItems (x :: xs) = print x ++ xs.flatMap fun y => ',' :: print y := by
  induction xs generalizing x with
  | nil => simp [printItems]
  | cons y ys ih =>
    have hne : y :: ys = [] → False := List.cons_ne_nil y ys
    rw [printItems.eq_3 x (y :: ys) hne, ih y, List.flatMap_cons]
    rfl

/-- A member as it is written. -/
def printMember (m : String × Json) : List Char := printString m.1 ++ ':' :: print m.2

theorem printMembers_cons (m : String × Json) (ms : List (String × Json)) :
    printMembers (m :: ms) = printMember m ++ ms.flatMap fun n => ',' :: printMember n := by
  induction ms generalizing m with
  | nil => simp [printMembers, printMember]
  | cons n ns ih =>
    have hne : n :: ns = [] → False := List.cons_ne_nil n ns
    rw [printMembers.eq_3 m.1 m.2 (n :: ns) hne, ih n, List.flatMap_cons]
    simp [printMember]

theorem toDigits_cons (n : Nat) : ∃ c cs, Nat.toDigits 10 n = c :: cs ∧ c.isDigit = true := by
  match h : Nat.toDigits 10 n with
  | [] => exact absurd h Nat.toDigits_ne_nil
  | c :: cs => exact ⟨c, cs, rfl, Text.isDigit_of_mem_toDigits (h ▸ List.mem_cons_self)⟩

/-- A value starts with a character that is no blank and that ends no list. -/
theorem print_head (v : Json) :
    ∃ c cs, print v = c :: cs ∧ isSpace c = false ∧ c ≠ ']' ∧ c ≠ ',' := by
  cases v with
  | null => exact ⟨_, _, rfl, by decide⟩
  | bool b => cases b <;> exact ⟨_, _, rfl, by decide⟩
  | str => exact ⟨_, _, rfl, by decide⟩
  | arr => exact ⟨_, _, rfl, by decide⟩
  | obj => exact ⟨_, _, rfl, by decide⟩
  | int n =>
    rw [print, printInt]
    split_ifs with hneg
    · exact ⟨_, _, rfl, by decide⟩
    · obtain ⟨c, cs, hds, hc⟩ := toDigits_cons n.natAbs
      exact ⟨c, cs, hds, isSpace_of_isDigit hc, ne_of_isDigit hc rfl, ne_of_isDigit hc rfl⟩
  | real x =>
    obtain ⟨cs, ⟨hcs, hne⟩, hx⟩ := x.render_eq
    rw [print, hx]
    split_ifs with hneg
    · exact ⟨_, _, rfl, by decide⟩
    · obtain ⟨c, cs, rfl⟩ := List.exists_cons_of_ne_nil hne
      rcases hcs.head with hc | rfl | rfl
      · exact ⟨c, cs, rfl, isSpace_of_isDigit hc, ne_of_isDigit hc rfl, ne_of_isDigit hc rfl⟩
      · exact ⟨_, _, rfl, by decide⟩
      · exact ⟨_, _, rfl, by decide⟩

theorem valueOver_int {depth : Nat} {n : Int} (h : Plain depth (int n))
    (nested : Option (Reader Json)) {rest : List Char} (hr : Delimited rest) :
    valueOver nested (print (int n) ++ rest) = .ok (int n, rest) := by
  cases h with
  | int least greatest =>
    rw [print, printInt]
    split_ifs with hneg
    · have hmag : n.natAbs ≠ 0 ∧ n.natAbs ≤ 9223372036854775808 := by omega
      have hsign : -(n.natAbs : Int) = n := by omega
      have hread := number_toDigits (n := n.natAbs) true (by omega) (fun _ => hmag) hr
      rw [if_pos rfl, hsign] at hread
      exact hread
    · have habs : (n.natAbs : Int) = n := by omega
      have hread := number_toDigits (n := n.natAbs) false (by omega) (by simp) hr
      rw [if_neg Bool.false_ne_true, habs] at hread
      obtain ⟨c, cs, hds, hc⟩ := toDigits_cons n.natAbs
      rw [hds, List.cons_append] at hread ⊢
      rw [valueOver_digit hc, hread]

/-- The reader gives back a written value, up to what ends it. -/
def ReadsBack (item : Reader Json) (v : Json) : Prop :=
  ∀ rest, Delimited rest → item (print v ++ rest) = .ok (v, rest)

theorem length_le_flatMap_comma {α : Type} (f : α → List Char) (xs : List α) :
    xs.length ≤ (xs.flatMap fun x => ',' :: f x).length := by
  induction xs with
  | nil => exact Nat.zero_le _
  | cons x xs ih =>
    rw [List.flatMap_cons, List.length_append, List.length_cons, List.length_cons]
    omega

/-- What stands behind an item or a member ends it. -/
theorem delimited_flatMap_comma {α : Type} (f : α → List Char) (xs : List α) {c : Char}
    (hc : c = ']' ∨ c = '\x7d') (rest : List Char) :
    Delimited ((xs.flatMap fun x => ',' :: f x) ++ c :: rest) := by
  cases xs with
  | nil => exact .cons (.inr hc)
  | cons x xs => exact .cons (.inl rfl)

section
variable {item : Reader Json}

theorem nextItem_print (v : Json) (cs : List Char) :
    nextItem true (print v ++ cs) = .ok (true, print v ++ cs) ∧
      nextItem false (',' :: (print v ++ cs)) = .ok (true, print v ++ cs) := by
  obtain ⟨c, ds, hv, hspace, hbracket, hcomma⟩ := print_head v
  have hskip : skipSpace (c :: (ds ++ cs)) = c :: (ds ++ cs) := skipSpace_cons hspace _
  have hsep : skipSpace (',' :: c :: (ds ++ cs)) = ',' :: c :: (ds ++ cs) :=
    skipSpace_cons (by decide) _
  rw [hv, List.cons_append]
  simp [nextItem, hskip, hsep, hbracket, hcomma]

theorem itemsWithin_more {rounds : Nat} {first : Bool} {cs cs' cs'' rest : List Char} {x : Json}
    {xs : List Json} (hnext : nextItem first cs = .ok (true, cs'))
    (hitem : item cs' = .ok (x, cs''))
    (hrest : itemsWithin item rounds false cs'' = .ok (xs, rest)) :
    itemsWithin item (rounds + 1) first cs = .ok (x :: xs, rest) := by
  simp only [itemsWithin, hnext, ok_bind, if_true, hitem, hrest, pure_eq]

theorem itemsWithin_rest {xs : List Json} (hread : ∀ x ∈ xs, ReadsBack item x) {rounds : Nat}
    (hr : xs.length < rounds) (rest : List Char) :
    itemsWithin item rounds false ((xs.flatMap fun x => ',' :: print x) ++ ']' :: rest) =
      .ok (xs, rest) := by
  induction xs generalizing rounds with
  | nil =>
    obtain ⟨k, rfl⟩ := Nat.exists_eq_add_of_lt hr
    rfl
  | cons x xs ih =>
    obtain ⟨k, rfl⟩ : ∃ k, rounds = k + 1 := ⟨rounds - 1, by omega⟩
    have hrest := ih (fun y hy => hread y (.tail _ hy)) (Nat.lt_of_succ_lt_succ hr)
    have hitem := hread x List.mem_cons_self _ (delimited_flatMap_comma print xs (.inl rfl) rest)
    rw [List.flatMap_cons, List.cons_append, List.cons_append, List.append_assoc]
    exact itemsWithin_more (nextItem_print x _).2 hitem hrest

theorem items_print {xs : List Json} (hread : ∀ x ∈ xs, ReadsBack item x) (rest : List Char) :
    items item (printItems xs ++ ']' :: rest) = .ok (xs, rest) := by
  cases xs with
  | nil => rfl
  | cons x xs =>
    have hlen := length_le_flatMap_comma print xs
    have hitem := hread x List.mem_cons_self _ (delimited_flatMap_comma print xs (.inl rfl) rest)
    rw [items, printItems_cons, List.append_assoc]
    refine itemsWithin_more (nextItem_print x _).1 hitem ?_
    refine itemsWithin_rest (fun y hy => hread y (.tail _ hy)) ?_ _
    simp only [List.length_append, List.length_cons]
    omega

theorem nextKey_printString (k : String) (cs : List Char) :
    nextKey true (printString k ++ cs) = .ok (some k, cs) ∧
      nextKey false (',' :: (printString k ++ cs)) = .ok (some k, cs) := by
  have hread := string_flatMap_escape k cs
  rw [printString, List.cons_append, List.append_assoc]
  constructor
  · exact map_eq_ok.mpr ⟨(k, cs), hread, rfl⟩
  · exact map_eq_ok.mpr ⟨(k, cs), hread, rfl⟩

theorem membersWithin_more {rounds : Nat} {first : Bool} {k : String} {v : Json}
    {cs cs' rest : List Char} {ms : List (String × Json)}
    (hkey : nextKey first cs = .ok (some k, ':' :: (print v ++ cs')))
    (hitem : item (print v ++ cs') = .ok (v, cs'))
    (hrest : membersWithin item rounds false cs' = .ok (ms, rest)) :
    membersWithin item (rounds + 1) first cs = .ok ((k, v) :: ms, rest) := by
  have hcolon : colon (':' :: (print v ++ cs')) = .ok ((), print v ++ cs') := rfl
  simp only [membersWithin, hkey, ok_bind, hcolon, hitem, hrest, pure_eq]

theorem membersWithin_rest {ms : List (String × Json)} (hread : ∀ m ∈ ms, ReadsBack item m.2)
    {rounds : Nat} (hr : ms.length < rounds) (rest : List Char) :
    membersWithin item rounds false ((ms.flatMap fun m => ',' :: printMember m) ++ '\x7d' :: rest) =
      .ok (ms, rest) := by
  induction ms generalizing rounds with
  | nil =>
    obtain ⟨k, rfl⟩ := Nat.exists_eq_add_of_lt hr
    rfl
  | cons m ms ih =>
    obtain ⟨k, rfl⟩ : ∃ k, rounds = k + 1 := ⟨rounds - 1, by omega⟩
    have hrest := ih (fun n hn => hread n (.tail _ hn)) (Nat.lt_of_succ_lt_succ hr)
    have hitem := hread m List.mem_cons_self _
      (delimited_flatMap_comma printMember ms (.inr rfl) rest)
    rw [List.flatMap_cons, List.cons_append, List.cons_append, printMember, List.append_assoc,
      List.append_assoc]
    exact membersWithin_more (nextKey_printString m.1 _).2 hitem hrest

theorem members_print {ms : List (String × Json)} (hread : ∀ m ∈ ms, ReadsBack item m.2)
    (rest : List Char) :
    members item (printMembers ms ++ '\x7d' :: rest) = .ok (ms, rest) := by
  cases ms with
  | nil => rfl
  | cons m ms =>
    have hlen := length_le_flatMap_comma printMember ms
    have hitem := hread m List.mem_cons_self _
      (delimited_flatMap_comma printMember ms (.inr rfl) rest)
    rw [members, printMembers_cons, printMember, List.append_assoc, List.append_assoc]
    refine membersWithin_more (nextKey_printString m.1 _).1 hitem ?_
    refine membersWithin_rest (fun n hn => hread n (.tail _ hn)) ?_ rest
    simp only [List.length_append, List.length_cons]
    omega

end

/-- A tree that is written is read back, if it nests no deeper than the reader goes. -/
theorem value_print {depth : Nat} {v : Json} (h : Plain depth v) : ReadsBack (value depth) v := by
  -- on the tree: what is inside a list or an object has one level less to go
  induction h with
  | @null depth =>
    intro rest _
    obtain ⟨nested, hn⟩ := value_eq_valueOver depth
    rw [hn]
    rfl
  | @bool depth b =>
    intro rest _
    obtain ⟨nested, hn⟩ := value_eq_valueOver depth
    rw [hn]
    cases b <;> rfl
  | @int depth n least greatest =>
    intro rest hr
    obtain ⟨nested, hn⟩ := value_eq_valueOver depth
    rw [hn]
    have hint : Plain depth (int n) := .int least greatest
    exact valueOver_int hint nested hr
  | @str depth s =>
    intro rest _
    obtain ⟨nested, hn⟩ := value_eq_valueOver depth
    rw [hn, print, printString, List.cons_append, List.append_assoc]
    exact map_eq_ok.mpr ⟨(s, rest), string_flatMap_escape s rest, rfl⟩
  | @arr depth xs items ih =>
    intro rest _
    rw [print, List.cons_append, List.append_assoc]
    exact map_eq_ok.mpr ⟨(xs, rest), items_print ih rest, rfl⟩
  | @obj depth ms order members ih =>
    intro rest _
    -- the members come as they were written, and putting them in order changes nothing
    have htree : ofMembers ms = obj ms := congrArg obj order.arrange_eq
    rw [print, List.cons_append, List.append_assoc]
    exact map_eq_ok.mpr ⟨(ms, rest), members_print ih rest, Prod.ext htree rfl⟩

theorem plain_members {depth : Nat} {ms : List (String × Json)} (h : Plain depth (obj ms)) :
    InOrder ms ∧ ∀ m ∈ ms, Plain (depth - 1) m.2 := by
  cases h with
  | obj order members => exact ⟨order, members⟩

/-- The text of an object gives its members in their order. -/
theorem parseMembers_text {ms : List (String × Json)} (h : Plain maxDepth (obj ms)) :
    parseMembers (obj ms).text = .ok ms := by
  have hread := members_print (fun m hm => value_print ((plain_members h).2 m hm)) []
  have hchars : (obj ms).text.toList = '\x7b' :: (printMembers ms ++ ['\x7d']) := by
    rw [Json.text, String.toList_ofList, print]
  refine whole_eq_ok.mpr ⟨[], ?_, rfl⟩
  rw [hchars, object_of_brace (skipSpace_cons (by decide) _), hread]

end RpcPeer.Json
