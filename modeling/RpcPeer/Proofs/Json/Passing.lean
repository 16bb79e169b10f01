import RpcPeer.Proofs.Json.Local
import RpcPeer.Proofs.Json.Object

/-! Lists, objects and values take what they read and no more. -/
namespace RpcPeer.Json
open Steps

section
variable {c : Char} {cs ds rest sp : List Char}

theorem nextItem_first (hsp : ∀ b ∈ sp, isSpace b = true) (hc : isSpace c = false) (hne : c ≠ ']')
    (ds : List Char) : nextItem true (sp ++ c :: ds) = .ok (true, c :: ds) := by
  unfold nextItem
  rw [skipSpace_spaces hsp hc]
  split
  next he => cases he
  next he => exact absurd (List.cons.inj he).1 hne
  next he =>
    cases he
    rfl
  next => rfl

theorem nextItem_comma {sp' : List Char} (hsp : ∀ b ∈ sp, isSpace b = true)
    (hsp' : ∀ b ∈ sp', isSpace b = true) (hc : isSpace c = false) (hne : c ≠ ']')
    (ds : List Char) :
    nextItem false (sp ++ ',' :: (sp' ++ c :: ds)) = .ok (true, c :: ds) := by
  unfold nextItem
  rw [skipSpace_spaces hsp (by decide)]
  simp only [Bool.false_eq_true, if_false, skipSpace_spaces hsp' hc]
  split
  next he => cases he
  next he => exact absurd (List.cons.inj he).1 hne
  next => rfl

/-- Before an item one character of it decides. -/
theorem nextItem_eq_more {first : Bool} (h : nextItem first cs = .ok (true, ds)) :
    ∃ used c t, cs = used ++ ds ∧ ds = c :: t ∧ (first = false → Separate cs) ∧
      ∀ t, nextItem first (used ++ c :: t) = .ok (true, c :: t) := by
  cases first with
  | true =>
    have hskip : skipSpace cs = ds ∧ ds ≠ [] ∧ ∀ t, ds ≠ ']' :: t := by
      unfold nextItem at h
      split at h
      next => cases h
      next => cases h
      next hs =>
        cases h
        exact ⟨hs, by simp, by simp⟩
      next hnil hbracket _ =>
        cases h
        exact ⟨rfl, hnil, hbracket⟩
    obtain ⟨hs, hnil, hbracket⟩ := hskip
    obtain ⟨c, t, rfl⟩ := List.exists_cons_of_ne_nil hnil
    obtain ⟨sp, hsp, hc, rfl⟩ := exists_spaces hs
    exact ⟨sp, c, t, rfl, rfl, nofun,
      fun t' => nextItem_first hsp hc (fun he => hbracket t (by rw [he])) t'⟩
  | false =>
    have hskip : ∃ t, skipSpace cs = ',' :: t ∧ skipSpace t = ds ∧ ds ≠ [] ∧
        ∀ t, ds ≠ ']' :: t := by
      unfold nextItem at h
      split at h
      next => cases h
      next => cases h
      next t hs =>
        refine ⟨t, hs, ?_⟩
        simp only [Bool.false_eq_true, if_false] at h
        split at h
        next => cases h
        next => cases h
        next hnil hbracket =>
          cases h
          exact ⟨rfl, hnil, hbracket⟩
      next => cases h
    obtain ⟨t, hs, hs', hnil, hbracket⟩ := hskip
    obtain ⟨c, t', rfl⟩ := List.exists_cons_of_ne_nil hnil
    obtain ⟨sp, hsp, -, rfl⟩ := exists_spaces hs
    obtain ⟨sp', hsp', hc, rfl⟩ := exists_spaces hs'
    exact ⟨sp ++ ',' :: sp', c, t', by simp, rfl, fun _ => .spaces hsp (by decide), fun r => by
      rw [List.append_assoc, List.cons_append]
      exact nextItem_comma hsp hsp' hc (fun he => hbracket t' (by rw [he])) r⟩

theorem nextItem_eq_done {first : Bool} (h : nextItem first cs = .ok (false, ds)) :
    ∃ sp t, (∀ b ∈ sp, isSpace b = true) ∧ cs = sp ++ ']' :: t ∧ ds = ']' :: t := by
  unfold nextItem at h
  split at h
  next => cases h
  next t hs =>
    cases h
    obtain ⟨sp, hsp, -, rfl⟩ := exists_spaces hs
    exact ⟨sp, t, hsp, rfl, rfl⟩
  next =>
    split at h
    next => cases h
    next => split at h <;> cases h
  next => split at h <;> cases h

theorem nextItem_bracket (first : Bool) (hsp : ∀ b ∈ sp, isSpace b = true) (ds : List Char) :
    nextItem first (sp ++ ']' :: ds) = .ok (false, ']' :: ds) := by
  simp only [nextItem, skipSpace_spaces hsp (show isSpace ']' = false by decide)]

theorem nextKey_eq_ok {first : Bool} {k : String} (h : nextKey first cs = .ok (some k, ds)) :
    ∃ used, used ≠ [] ∧ cs = used ++ ds ∧ (first = false → Separate cs) ∧
      ∀ rest, nextKey first (used ++ rest) = .ok (some k, rest) := by
  unfold nextKey at h
  split at h
  next => cases h
  next => cases h
  next t hs =>
    split at h
    next hfirst =>
      obtain ⟨sp, hsp, hc, rfl⟩ := exists_spaces hs
      obtain ⟨⟨s, tail⟩, hread, he⟩ := map_eq_ok.mp h
      cases he
      obtain ⟨used, rfl, hused⟩ := string_eq_ok hread
      refine ⟨sp ++ '"' :: used, by simp, by simp, fun _ => .spaces hsp (by decide), fun r => ?_⟩
      simp only [nextKey, List.append_assoc, List.cons_append, skipSpace_spaces hsp hc, hfirst,
        if_true, hused]
      rfl
    next => cases h
  next t hs =>
    split at h
    next => cases h
    next hfirst =>
      split at h
      next => cases h
      next t' hs' =>
        obtain ⟨sp, hsp, hc, rfl⟩ := exists_spaces hs
        obtain ⟨sp', hsp', hc', rfl⟩ := exists_spaces hs'
        obtain ⟨⟨s, tail⟩, hread, he⟩ := map_eq_ok.mp h
        cases he
        obtain ⟨used, rfl, hused⟩ := string_eq_ok hread
        refine ⟨sp ++ ',' :: (sp' ++ '"' :: used), by simp, by simp,
          fun _ => .spaces hsp (by decide), fun r => ?_⟩
        simp only [nextKey, List.append_assoc, List.cons_append, skipSpace_spaces hsp hc,
          skipSpace_spaces hsp' hc', hfirst, hused]
        rfl
      next => cases h
      next => cases h
  next => cases h

/-- No further member: the closing brace comes next. -/
theorem nextKey_eq_none {first : Bool} (h : nextKey first cs = .ok (none, ds)) :
    ∃ sp t, (∀ b ∈ sp, isSpace b = true) ∧ cs = sp ++ '\x7d' :: t ∧ ds = '\x7d' :: t := by
  unfold nextKey at h
  split at h
  next => cases h
  next t hs =>
    cases h
    obtain ⟨sp, hsp, -, rfl⟩ := exists_spaces hs
    exact ⟨sp, t, hsp, rfl, rfl⟩
  next =>
    split at h
    next =>
      obtain ⟨_, -, he⟩ := map_eq_ok.mp h
      cases he
    next => cases h
  next =>
    split at h
    next => cases h
    next =>
      split at h
      next => cases h
      next =>
        obtain ⟨_, -, he⟩ := map_eq_ok.mp h
        cases he
      next => cases h
      next => cases h
  next => cases h

theorem colon_eq_ok (h : colon cs = .ok ((), ds)) : ∃ used, cs = used ++ ds ∧
    ∀ rest, colon (used ++ rest) = .ok ((), rest) := by
  unfold colon at h
  split at h
  next => cases h
  next t hs =>
    cases h
    obtain ⟨sp, hsp, hc, rfl⟩ := exists_spaces hs
    refine ⟨sp ++ [':'], by simp, fun r => ?_⟩
    simp only [colon, List.append_assoc, List.singleton_append, skipSpace_spaces hsp hc]
  next => cases h

end

section
variable {α : Type} {item : Reader α} {rounds : Nat} {first : Bool} {cs rest : List Char}
  {xs : List α} {ms ns : List (String × α)}

/-- A list is read in as many rounds as it has characters, whatever follows it. -/
theorem itemsWithin_eq_ok (hitem : Local item)
    (h : itemsWithin item rounds first cs = .ok (xs, rest)) :
    ∃ used, used ≠ [] ∧ cs = used ++ rest ∧ (first = false → Separate cs) ∧
      ∀ rounds rest, used.length ≤ rounds →
        itemsWithin item rounds first (used ++ rest) = .ok (xs, rest) := by
  induction rounds generalizing first cs xs with
  | zero => cases h
  | succ n ih =>
    obtain ⟨⟨more, cs₁⟩, hnext, h⟩ := bind_eq_ok.mp h
    cases more with
    | false =>
      obtain ⟨sp, t, hsp, rfl, rfl⟩ := nextItem_eq_done hnext
      obtain ⟨⟨⟨⟩, tail⟩, hend, h⟩ := bind_eq_ok.mp h
      cases h
      cases hend
      refine ⟨sp ++ [']'], by simp, by simp, fun _ => .spaces hsp (by decide), ?_⟩
      intro rounds r hr
      obtain ⟨k, rfl⟩ : ∃ k, rounds = k + 1 :=
        ⟨rounds - 1, by simp only [List.length_append, List.length_singleton] at hr; omega⟩
      rw [List.append_assoc, List.singleton_append, itemsWithin, nextItem_bracket first hsp]
      rfl
    | true =>
      obtain ⟨⟨x, cs₂⟩, hx, h⟩ := bind_eq_ok.mp h
      obtain ⟨⟨ys, tail⟩, hys, h⟩ := bind_eq_ok.mp h
      cases h
      obtain ⟨used₀, c, t, rfl, hc, hsep, hnext'⟩ := nextItem_eq_more hnext
      obtain ⟨used₁, hne₁, rfl, htakes⟩ := hitem hx
      obtain ⟨used₂, hne₂, rfl, hsep₂, hrest⟩ := ih hys
      -- the item begins with the character that has decided
      obtain ⟨d, used₁, rfl⟩ := List.exists_cons_of_ne_nil hne₁
      cases hc
      refine ⟨used₀ ++ (c :: used₁ ++ used₂), by simp, by simp, hsep, fun rounds r hr => ?_⟩
      obtain ⟨k, rfl⟩ : ∃ k, rounds = k + 1 :=
        ⟨rounds - 1, by simp only [List.length_append, List.length_cons] at hr; omega⟩
      have hk : used₂.length ≤ k := by
        simp only [List.length_append, List.length_cons] at hr
        omega
      have hread := htakes _ ((hsep₂ rfl).append hne₂ r)
      rw [List.cons_append] at hread
      simp only [itemsWithin, List.append_assoc, List.cons_append, hnext', ok_bind, if_true, hread,
        hrest k r hk, pure_eq]

theorem takes_of_items (hitem : Local item) (h : items item cs = .ok (xs, rest)) :
    ∃ used, cs = used ++ rest ∧ ∀ rest, items item (used ++ rest) = .ok (xs, rest) := by
  obtain ⟨used, -, rfl, -, hread⟩ := itemsWithin_eq_ok hitem h
  refine ⟨used, rfl, fun r => hread _ r ?_⟩
  rw [List.length_append]
  omega

/-- Reading takes some members off a text and leaves the rest. -/
inductive Passes (item : Reader α) : Bool → List Char → List (String × α) → List Char → Prop
  | done {first : Bool} {cs : List Char} : Passes item first cs [] cs
  | member {first : Bool} {k : String} {x : α} {ms : List (String × α)}
      {cs cs₁ cs₂ cs₃ rest : List Char} (hkey : nextKey first cs = .ok (some k, cs₁))
      (hcolon : colon cs₁ = .ok ((), cs₂)) (hitem : item cs₂ = .ok (x, cs₃))
      (hrest : Passes item false cs₃ ms rest) : Passes item first cs ((k, x) :: ms) rest

theorem membersWithin_separate (h : membersWithin item rounds false cs = .ok (ms, rest)) :
    Separate cs := by
  cases rounds with
  | zero => cases h
  | succ n =>
    rcases membersWithin_cases h with ⟨cs₁, hkey, -, -⟩ | ⟨k, x, ns, cs₁, cs₂, cs₃, hkey, -⟩
    · obtain ⟨sp, t, hsp, rfl, -⟩ := nextKey_eq_none hkey
      exact .spaces hsp (by decide)
    · obtain ⟨used, -, -, hsep, -⟩ := nextKey_eq_ok hkey
      exact hsep rfl

/-- The members before a closing brace are passed over as well where a comma stands for it. -/
theorem passes_of_membersWithin (hitem : Local item)
    (h : membersWithin item rounds first cs = .ok (ms, rest)) :
    ∃ used sp, (∀ b ∈ sp, isSpace b = true) ∧ cs = used ++ (sp ++ '\x7d' :: rest) ∧
      ms.length ≤ used.length ∧ ∀ c rest, c = ',' ∨ c = '\x7d' →
        Passes item first (used ++ (sp ++ c :: rest)) ms (sp ++ c :: rest) := by
  induction rounds generalizing first cs ms with
  | zero => cases h
  | succ n ih =>
    rcases membersWithin_cases h with ⟨cs₁, hkey, hend, rfl⟩ |
      ⟨k, x, ns, cs₁, cs₂, cs₃, hkey, hcolon, hx, hns, rfl⟩
    · obtain ⟨sp, t, hsp, rfl, rfl⟩ := nextKey_eq_none hkey
      cases hend
      exact ⟨[], sp, hsp, rfl, Nat.le_refl 0, fun c r _ => .done⟩
    · obtain ⟨used₀, hne, rfl, -, hkey'⟩ := nextKey_eq_ok hkey
      obtain ⟨used₁, rfl, hcolon'⟩ := colon_eq_ok hcolon
      obtain ⟨used₂, -, rfl, htakes⟩ := hitem hx
      obtain ⟨used₃, sp, hsp, rfl, hlen, hpass⟩ := ih hns
      refine ⟨used₀ ++ (used₁ ++ (used₂ ++ used₃)), sp, hsp, by simp, ?_, fun c r hc => ?_⟩
      · have hpos := List.length_pos_iff.mpr hne
        simp only [List.length_append, List.length_cons]
        omega
      · have hsep : Separate (used₃ ++ (sp ++ c :: r)) := by
          have hold := membersWithin_separate hns
          rw [← List.append_assoc] at hold ⊢
          by_cases hnil : used₃ ++ sp = []
          · rw [hnil]
            refine .cons ?_
            rcases hc with rfl | rfl <;> decide
          · exact hold.append hnil _
        simp only [List.append_assoc]
        exact .member (hkey' _) (hcolon' _) (htakes _ hsep) (hpass c r hc)

theorem membersWithin_of_passes (h : Passes item first cs ms rest) {n : Nat} {tail : List Char}
    (hrest : membersWithin item n (first && ms.isEmpty) rest = .ok (ns, tail)) :
    membersWithin item (ms.length + n) first cs = .ok (ms ++ ns, tail) := by
  induction h with
  | done => simpa using hrest
  | @member first k x ms cs cs₁ cs₂ cs₃ rest hkey hcolon hitem _ ih =>
    have hn := ih (by simpa using hrest)
    rw [List.length_cons, Nat.succ_add]
    simp only [membersWithin, hkey, hcolon, hitem, hn, ok_bind, pure_eq, List.cons_append]

theorem takes_of_members (hitem : Local item) (h : members item cs = .ok (ms, rest)) :
    ∃ used, cs = used ++ rest ∧ ∀ rest, members item (used ++ rest) = .ok (ms, rest) := by
  obtain ⟨used, sp, hsp, rfl, hlen, hpass⟩ := passes_of_membersWithin hitem h
  refine ⟨used ++ (sp ++ ['\x7d']), by simp, fun r => ?_⟩
  have hclose : ∀ n, membersWithin item (n + 1) (true && ms.isEmpty) (sp ++ '\x7d' :: r) =
      .ok ([], r) := by
    intro n
    have hkey : nextKey (true && ms.isEmpty) (sp ++ '\x7d' :: r) = .ok (none, '\x7d' :: r) := by
      simp only [nextKey, skipSpace_spaces hsp (show isSpace '\x7d' = false by decide)]
    simp only [membersWithin, hkey, ok_bind]
    rfl
  have hall := membersWithin_of_passes (hpass '\x7d' r (.inr rfl))
    (hclose ((used ++ (sp ++ '\x7d' :: r)).length - ms.length))
  rw [List.append_nil] at hall
  have hrounds : ms.length + ((used ++ (sp ++ '\x7d' :: r)).length - ms.length + 1) =
      (used ++ (sp ++ '\x7d' :: r)).length + 1 := by
    simp only [List.length_append]
    omega
  rw [hrounds] at hall
  simpa [members] using hall

end

/-- Behind the blanks a value is read by its first character. -/
theorem valueOver_spaces (nested : Option (Reader Json)) {sp : List Char}
    (hsp : ∀ b ∈ sp, isSpace b = true) {c : Char} (hc : isSpace c = false) (ds : List Char) :
    valueOver nested (sp ++ c :: ds) = valueOver nested (c :: ds) := by
  unfold valueOver
  rw [skipSpace_spaces hsp hc, skipSpace_cons hc]

/-- What comes behind a value matters for a number only. -/
theorem takes_of_valueOver {nested : Option (Reader Json)}
    (hnested : ∀ reader, nested = some reader → Local reader) {cs rest : List Char} {v : Json}
    (h : valueOver nested cs = .ok (v, rest)) :
    ∃ used, used ≠ [] ∧ cs = used ++ rest ∧
      ∀ r, (v.IsNumber → Separate r) → valueOver nested (used ++ r) = .ok (v, r) := by
  -- it is enough to know what is taken after the first character
  have hlift : ∀ c t, skipSpace cs = c :: t → (∃ used, t = used ++ rest ∧
      ∀ r, (v.IsNumber → Separate r) → valueOver nested (c :: (used ++ r)) = .ok (v, r)) →
      ∃ used, used ≠ [] ∧ cs = used ++ rest ∧
        ∀ r, (v.IsNumber → Separate r) → valueOver nested (used ++ r) = .ok (v, r) := by
    rintro c t hs ⟨used, rfl, hread⟩
    obtain ⟨sp, hsp, hc, rfl⟩ := exists_spaces hs
    refine ⟨sp ++ c :: used, by simp, by simp, fun r hr => ?_⟩
    rw [List.append_assoc, List.cons_append, valueOver_spaces nested hsp hc]
    exact hread r hr
  unfold valueOver at h
  split at h
  next => cases h
  next t hs =>
    obtain ⟨tail, hident, he⟩ := map_eq_ok.mp h
    cases he
    refine hlift 'n' t hs ⟨_, ident_eq_ok.mp hident, fun r _ => rfl⟩
  next t hs =>
    obtain ⟨tail, hident, he⟩ := map_eq_ok.mp h
    cases he
    exact hlift 't' t hs ⟨_, ident_eq_ok.mp hident, fun r _ => rfl⟩
  next t hs =>
    obtain ⟨tail, hident, he⟩ := map_eq_ok.mp h
    cases he
    exact hlift 'f' t hs ⟨_, ident_eq_ok.mp hident, fun r _ => rfl⟩
  next t hs =>
    have hv := isNumber_number h
    obtain ⟨used, -, rfl, htakes⟩ := local_number true h
    exact hlift '-' _ hs ⟨used, rfl, fun r hr => htakes r (hr hv)⟩
  next t hs =>
    obtain ⟨⟨s, tail⟩, hread, he⟩ := map_eq_ok.mp h
    cases he
    obtain ⟨used, rfl, hused⟩ := string_eq_ok hread
    exact hlift '"' _ hs ⟨used, rfl, fun r _ => map_eq_ok.mpr ⟨(s, r), hused r, rfl⟩⟩
  next t hs =>
    split at h
    next => cases h
    next reader =>
      obtain ⟨⟨xs, tail⟩, hread, he⟩ := map_eq_ok.mp h
      cases he
      obtain ⟨used, rfl, hused⟩ := takes_of_items (hnested reader rfl) hread
      exact hlift '[' _ hs ⟨used, rfl, fun r _ => map_eq_ok.mpr ⟨(xs, r), hused r, rfl⟩⟩
  next t hs =>
    split at h
    next => cases h
    next reader =>
      obtain ⟨⟨ms, tail⟩, hread, he⟩ := map_eq_ok.mp h
      cases he
      obtain ⟨used, rfl, hused⟩ := takes_of_members (hnested reader rfl) hread
      exact hlift '\x7b' _ hs ⟨used, rfl, fun r _ => map_eq_ok.mpr ⟨(ms, r), hused r, rfl⟩⟩
  next c t _ _ _ _ _ _ _ hs =>
    split_ifs at h with hc
    have hv := isNumber_number h
    obtain ⟨used, hne, hused, htakes⟩ := local_number false h
    obtain ⟨d, used, rfl⟩ := List.exists_cons_of_ne_nil hne
    cases hused
    refine hlift c _ hs ⟨used, rfl, fun r hr => ?_⟩
    rw [valueOver_digit hc]
    exact htakes r (hr hv)

theorem local_valueOver {nested : Option (Reader Json)}
    (hnested : ∀ reader, nested = some reader → Local reader) : Local (valueOver nested) := by
  intro cs v rest h
  obtain ⟨used, hne, hcs, hread⟩ := takes_of_valueOver hnested h
  exact ⟨used, hne, hcs, fun r hr => hread r fun _ => hr⟩

theorem local_value (depth : Nat) : Local (value depth) := by
  induction depth with
  | zero => exact local_valueOver nofun
  | succ depth ih =>
    exact local_valueOver fun reader hreader => by
      cases hreader
      exact ih

/-- More text behind it changes a value only if the value is a number that goes on there. -/
theorem value_append {depth : Nat} {cs rest : List Char} {v : Json}
    (h : value depth cs = .ok (v, rest)) {tail : List Char}
    (hsep : v.IsNumber → Separate (rest ++ tail)) :
    value depth (cs ++ tail) = .ok (v, rest ++ tail) := by
  have htakes : ∃ used, used ≠ [] ∧ cs = used ++ rest ∧
      ∀ r, (v.IsNumber → Separate r) → value depth (used ++ r) = .ok (v, r) := by
    cases depth with
    | zero =>
      refine takes_of_valueOver (fun reader hreader => ?_) h
      cases hreader
    | succ depth =>
      refine takes_of_valueOver (fun reader hreader => ?_) h
      cases hreader
      exact local_value depth
  obtain ⟨used, -, rfl, hread⟩ := htakes
  rw [List.append_assoc]
  exact hread _ hsep

section
variable {head : String} {cs : List Char} {ms : List (String × Json)}

theorem spaces_of_finish (h : finish cs = .ok ()) : ∀ b ∈ cs, isSpace b = true := by
  unfold finish at h
  split at h
  next hnil => exact List.dropWhile_eq_nil_iff.mp (List.isEmpty_iff.mp hnil)
  next => cases h

/-- Where a brace would close an object, its members stand before that place. -/
theorem passes_of_parseMembers (h : parseMembers (head ++ "\x7d") = .ok ms) :
    ∃ sp body sp', (∀ b ∈ sp, isSpace b = true) ∧ (∀ b ∈ sp', isSpace b = true) ∧
      head.toList = sp ++ '\x7b' :: (body ++ sp') ∧ ms.length ≤ body.length ∧
      ∀ rest, Passes (value (maxDepth - 1)) true (body ++ (sp' ++ ',' :: rest)) ms
        (sp' ++ ',' :: rest) := by
  obtain ⟨rest, hread, hend⟩ := whole_eq_ok.mp h
  obtain ⟨ds, hs⟩ := brace_of_object hread
  rw [object_of_brace hs] at hread
  obtain ⟨sp, hsp, -, hhead⟩ := exists_spaces hs
  obtain ⟨body, sp', hsp', rfl, hlen, hpass⟩ :=
    passes_of_membersWithin (local_value (maxDepth - 1)) hread
  refine ⟨sp, body, sp', hsp, hsp', ?_, hlen, fun rest => hpass ',' rest (.inl rfl)⟩
  -- only blanks may follow the brace that closes the object, and the text ends with a brace
  cases rest using List.reverseRecOn with
  | nil =>
    have hclose : head.toList ++ ['\x7d'] = sp ++ '\x7b' :: (body ++ sp') ++ ['\x7d'] := by
      simpa using hhead
    exact List.append_cancel_right hclose
  | append_singleton rest b =>
    have hclose : head.toList ++ ['\x7d'] =
        sp ++ '\x7b' :: (body ++ (sp' ++ '\x7d' :: rest)) ++ [b] := by
      simpa using hhead
    obtain rfl : '\x7d' = b := List.singleton_inj.mp (List.append_inj' hclose rfl).2
    exact absurd (spaces_of_finish hend '\x7d' (by simp)) (by decide)

end

end RpcPeer.Json
