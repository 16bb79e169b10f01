import RpcPeer.Proofs.Json.RoundTrip

/-! What a written tree is read as, whatever tree it is. -/
namespace RpcPeer.Json
open Steps

theorem Delimited.separate {rest : List Char} (h : Delimited rest) : Separate rest := by
  rcases h.cases with rfl | ⟨cs, rfl | rfl | rfl⟩
  · exact .nil
  all_goals exact .cons (by decide)

/-- If the reader takes the written value at all, it leaves what stands behind it. -/
def Whole (item : Reader Json) (v : Json) : Prop :=
  ∀ ⦃rest w rest'⦄, Delimited rest → item (print v ++ rest) = .ok (w, rest') → rest' = rest

/-- The reader takes the written `v` for `w`. -/
def TakenFor (item : Reader Json) (v w : Json) : Prop :=
  ∃ rest, Delimited rest ∧ item (print v ++ rest) = .ok (w, rest)

/-- A member comes back under its name. -/
def MemberTakenFor (item : Reader Json) (m n : String × Json) : Prop :=
  n.1 = m.1 ∧ TakenFor item m.2 n.2

section
variable {item : Reader Json} {rounds : Nat} {rest rest' : List Char}

theorem rest_of_numeral {nested : Option (Reader Json)} {negative : Bool} {cs : List Char}
    {w : Json} (hcs : Numeral cs) (hne : cs ≠ []) (hr : Separate rest)
    (h : valueOver nested ((if negative then '-' :: cs else cs) ++ rest) = .ok (w, rest')) :
    rest' = rest := by
  cases negative with
  | true =>
    have hnumber : number true (cs ++ rest) = .ok (w, rest') := h
    exact rest_of_number hcs hr hnumber
  | false =>
    obtain ⟨c, t, rfl⟩ := List.exists_cons_of_ne_nil hne
    rcases hcs.head with hc | rfl | rfl
    · have hnumber : number false (c :: t ++ rest) = .ok (w, rest') :=
        (valueOver_digit hc nested (t ++ rest)).symm.trans h
      exact rest_of_number hcs hr hnumber
    · cases h
    · cases h

/-- One item is taken off, and the text behind it is left. -/
theorem exists_itemsWithin {first : Bool} {x : Json} {cs tail : List Char} {ys : List Json}
    (hx : Whole item x) (hd : Delimited tail)
    (hnext : nextItem first cs = .ok (true, print x ++ tail))
    (h : itemsWithin item (rounds + 1) first cs = .ok (ys, rest')) :
    ∃ zs, itemsWithin item rounds false tail = .ok (zs, rest') := by
  rw [itemsWithin, hnext] at h
  simp only [ok_bind, if_true] at h
  obtain ⟨⟨y, cs₁⟩, hitem, hafter⟩ := bind_eq_ok.mp h
  obtain rfl := hx hd hitem
  obtain ⟨⟨zs, cs₂⟩, hrest, he⟩ := bind_eq_ok.mp hafter
  cases he
  exact ⟨zs, hrest⟩

theorem rest_of_itemsWithin {xs ys : List Json} (hx : ∀ x ∈ xs, Whole item x)
    (h : itemsWithin item rounds false ((xs.flatMap fun x => ',' :: print x) ++ ']' :: rest) =
      .ok (ys, rest')) : rest' = rest := by
  -- every round takes one item off and comes to the comma behind it
  induction xs generalizing rounds ys with
  | nil =>
    cases rounds with
    | zero => cases h
    | succ n =>
      cases h
      rfl
  | cons x xs ih =>
    cases rounds with
    | zero => cases h
    | succ n =>
      have hdelim := delimited_flatMap_comma print xs (.inl rfl) rest
      rw [List.flatMap_cons, List.cons_append, List.cons_append, List.append_assoc] at h
      obtain ⟨zs, hrest⟩ := exists_itemsWithin (hx x List.mem_cons_self) hdelim
        (nextItem_print x _).2 h
      exact ih (fun y hy => hx y (.tail _ hy)) hrest

theorem rest_of_items {xs ys : List Json} (hx : ∀ x ∈ xs, Whole item x)
    (h : items item (printItems xs ++ ']' :: rest) = .ok (ys, rest')) : rest' = rest := by
  cases xs with
  | nil =>
    cases h
    rfl
  | cons x xs =>
    have hdelim := delimited_flatMap_comma print xs (.inl rfl) rest
    rw [items, printItems_cons, List.append_assoc] at h
    obtain ⟨zs, hrest⟩ := exists_itemsWithin (hx x List.mem_cons_self) hdelim
      (nextItem_print x _).1 h
    exact rest_of_itemsWithin (fun y hy => hx y (.tail _ hy)) hrest

/-- One member is taken off: it comes back under its name, and the text behind it is left. -/
theorem member_of_membersWithin {first : Bool} {m : String × Json} {cs tail : List Char}
    {ns : List (String × Json)} (hm : Whole item m.2) (hd : Delimited tail)
    (hkey : nextKey first cs = .ok (some m.1, ':' :: (print m.2 ++ tail)))
    (h : membersWithin item (rounds + 1) first cs = .ok (ns, rest')) :
    ∃ n ns', ns = n :: ns' ∧ MemberTakenFor item m n ∧
      membersWithin item rounds false tail = .ok (ns', rest') := by
  rcases membersWithin_cases h with ⟨cs₁, hnone, -⟩ |
    ⟨k, w, ns', cs₁, cs₂, cs₃, hsome, hcolon, hitem, hrest, rfl⟩
  · cases hkey.symm.trans hnone
  · cases hkey.symm.trans hsome
    have hafter : colon (':' :: (print m.2 ++ tail)) = .ok ((), print m.2 ++ tail) := rfl
    cases hafter.symm.trans hcolon
    obtain rfl := hm hd hitem
    exact ⟨_, ns', rfl, ⟨rfl, cs₃, hd, hitem⟩, hrest⟩

theorem members_of_membersWithin {ms ns : List (String × Json)} (hm : ∀ m ∈ ms, Whole item m.2)
    (h : membersWithin item rounds false
      ((ms.flatMap fun m => ',' :: printMember m) ++ '\x7d' :: rest) = .ok (ns, rest')) :
    rest' = rest ∧ List.Forall₂ (MemberTakenFor item) ms ns := by
  induction ms generalizing rounds ns with
  | nil =>
    cases rounds with
    | zero => cases h
    | succ n =>
      cases h
      exact ⟨rfl, .nil⟩
  | cons m ms ih =>
    cases rounds with
    | zero => cases h
    | succ n =>
      have hdelim := delimited_flatMap_comma printMember ms (.inr rfl) rest
      rw [List.flatMap_cons, List.cons_append, List.cons_append, printMember, List.append_assoc,
        List.append_assoc] at h
      obtain ⟨n, ns', rfl, hn, hrest⟩ := member_of_membersWithin (hm m List.mem_cons_self) hdelim
        (nextKey_printString m.1 _).2 h
      obtain ⟨hr, hns⟩ := ih (fun n hn => hm n (.tail _ hn)) hrest
      exact ⟨hr, .cons hn hns⟩

theorem members_of_printMembers {ms ns : List (String × Json)} (hm : ∀ m ∈ ms, Whole item m.2)
    (h : members item (printMembers ms ++ '\x7d' :: rest) = .ok (ns, rest')) :
    rest' = rest ∧ List.Forall₂ (MemberTakenFor item) ms ns := by
  cases ms with
  | nil =>
    cases h
    exact ⟨rfl, .nil⟩
  | cons m ms =>
    have hdelim := delimited_flatMap_comma printMember ms (.inr rfl) rest
    rw [members, printMembers_cons, printMember, List.append_assoc, List.append_assoc] at h
    obtain ⟨n, ns', rfl, hn, hrest⟩ := member_of_membersWithin (hm m List.mem_cons_self) hdelim
      (nextKey_printString m.1 _).1 h
    obtain ⟨hr, hns⟩ := members_of_membersWithin (fun n hn => hm n (.tail _ hn)) hrest
    exact ⟨hr, .cons hn hns⟩

end

mutual
theorem whole_value (v : Json) (depth : Nat) : Whole (value depth) v := by
  intro rest w rest' hr h
  obtain ⟨nested, hnested⟩ := value_eq_valueOver depth
  cases v with
  | null =>
    rw [value_print .null rest hr] at h
    exact (congrArg Prod.snd (Except.ok.inj h)).symm
  | bool b =>
    rw [value_print .bool rest hr] at h
    exact (congrArg Prod.snd (Except.ok.inj h)).symm
  | str s =>
    rw [value_print .str rest hr] at h
    exact (congrArg Prod.snd (Except.ok.inj h)).symm
  | int n =>
    rw [hnested] at h
    have hdigits : Numeral (Nat.toDigits 10 n.natAbs) :=
      ⟨_, [], (List.append_nil _).symm, .toDigits _, .inl (.inl rfl)⟩
    have hprint : print (int n) = if decide (n < 0) then '-' :: Nat.toDigits 10 n.natAbs
        else Nat.toDigits 10 n.natAbs := by simp [print, printInt]
    rw [hprint] at h
    exact rest_of_numeral hdigits Nat.toDigits_ne_nil hr.separate h
  | real x =>
    obtain ⟨cs, ⟨hcs, hne⟩, hx⟩ := x.render_eq
    rw [hnested, print, hx] at h
    exact rest_of_numeral hcs hne hr.separate h
  | arr xs =>
    rw [print, List.cons_append, List.append_assoc] at h
    cases depth with
    | zero => cases h
    | succ depth =>
      obtain ⟨⟨ys, tail⟩, hys, he⟩ := map_eq_ok.mp h
      cases he
      exact rest_of_items (whole_items xs depth) hys
  | obj ms =>
    rw [print, List.cons_append, List.append_assoc] at h
    cases depth with
    | zero => cases h
    | succ depth =>
      obtain ⟨⟨ns, tail⟩, hns, he⟩ := map_eq_ok.mp h
      cases he
      exact (members_of_printMembers (whole_members ms depth) hns).1

theorem whole_items (xs : List Json) (depth : Nat) : ∀ x ∈ xs, Whole (value depth) x := by
  intro x hx
  cases xs with
  | nil => cases hx
  | cons y ys =>
    rcases List.mem_cons.mp hx with rfl | hx
    · exact whole_value _ depth
    · exact whole_items ys depth x hx

theorem whole_members (ms : List (String × Json)) (depth : Nat) :
    ∀ m ∈ ms, Whole (value depth) m.2 := by
  intro m hm
  cases ms with
  | nil => cases hm
  | cons n ns =>
    rcases List.mem_cons.mp hm with rfl | hm
    · exact whole_value _ depth
    · exact whole_members ns depth m hm
end

section
variable {depth : Nat} {v w : Json} {ms ns : List (String × Json)}

/-- Where no real number is in the way, what was written comes back. -/
theorem TakenFor.eq_of_plain (h : TakenFor (value depth) v w) (hv : Plain depth v) : w = v := by
  obtain ⟨rest, hr, h⟩ := h
  rw [value_print hv rest hr] at h
  exact (congrArg Prod.fst (Except.ok.inj h)).symm

/-- An object is taken for one with its members. -/
theorem TakenFor.of_obj (h : TakenFor (value (depth + 1)) (obj ms) w) :
    ∃ ns, w = ofMembers ns ∧ List.Forall₂ (MemberTakenFor (value depth)) ms ns := by
  obtain ⟨rest, hr, h⟩ := h
  rw [print, List.cons_append, List.append_assoc] at h
  obtain ⟨⟨ns, tail⟩, hns, he⟩ := map_eq_ok.mp h
  cases he
  exact ⟨ns, rfl, (members_of_printMembers (whole_members ms depth) hns).2⟩

/-- An array is taken for something only if its first item is. -/
theorem TakenFor.of_arr {x : Json} {xs : List Json}
    (h : TakenFor (value (depth + 1)) (arr (x :: xs)) w) : ∃ y, TakenFor (value depth) x y := by
  obtain ⟨rest, hr, h⟩ := h
  have hdelim := delimited_flatMap_comma print xs (.inl rfl) rest
  rw [print, List.cons_append, List.append_assoc, printItems_cons, List.append_assoc] at h
  obtain ⟨⟨ys, tail⟩, hys, -⟩ := map_eq_ok.mp h
  obtain ⟨⟨more, cs⟩, hnext, hafter⟩ := bind_eq_ok.mp hys
  cases (nextItem_print x _).1.symm.trans hnext
  obtain ⟨⟨y, cs⟩, hitem, -⟩ := bind_eq_ok.mp hafter
  obtain rfl := whole_value x depth hdelim hitem
  exact ⟨y, _, hdelim, hitem⟩

/-- Arrays that nest deeper than the reader goes. -/
theorem not_takenFor_nested :
    ¬ TakenFor (value depth) (Nat.iterate (arr [·]) depth (arr [])) w := by
  induction depth generalizing w with
  | zero =>
    rintro ⟨rest, -, h⟩
    cases h
  | succ depth ih =>
    intro h
    rw [Function.iterate_succ_apply'] at h
    obtain ⟨y, hy⟩ := h.of_arr
    exact ih hy

/-- If the text of an object can be read, it gives the members of the object. -/
theorem members_of_parseMembers (h : parseMembers (obj ms).text = .ok ns) :
    List.Forall₂ (MemberTakenFor (value (maxDepth - 1))) ms ns := by
  obtain ⟨rest, hread, -⟩ := whole_eq_ok.mp h
  have hchars : (obj ms).text.toList = '\x7b' :: (printMembers ms ++ ['\x7d']) := by
    rw [Json.text, String.toList_ofList, print]
  rw [hchars, object_of_brace (skipSpace_cons (by decide) _)] at hread
  exact (members_of_printMembers (whole_members ms _) hread).2

end
end RpcPeer.Json
