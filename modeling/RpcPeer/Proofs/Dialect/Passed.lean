import RpcPeer.Proofs.Dialect.Order
import RpcPeer.Proofs.Json.Passing

/-! How far the scan of a text gets, and what it has gathered by then. -/
namespace RpcPeer
namespace Envelope
open Json Steps

/-- The scan takes these members off a text. -/
structure Scans (dialect : Dialect) (first : Bool) (cs : List Char) (ms : List (String × Json))
    (rest : List Char) : Prop where
  passes : Passes (value (maxDepth - 1)) first cs ms rest
  fits : ∀ m ∈ ms, Fits dialect m

/-- Takes in members that fit. -/
def enterAll (dialect : Dialect) (e : Envelope) (ms : List (String × Json)) : Envelope :=
  (ms.foldl (enter dialect) e).withFields (e.fields ++ ms.filter (isField dialect))

section
variable {dialect : Dialect} {rounds : Nat} {first : Bool} {e : Envelope} {m : String × Json}
  {cs rest : List Char} {ms ns : List (String × Json)}

theorem enterAll_nil : enterAll dialect e [] = e := by
  simp [enterAll, withFields]

theorem enterAll_append :
    enterAll dialect e (ms ++ ns) = enterAll dialect (enterAll dialect e ms) ns := by
  unfold enterAll
  rw [foldl_enter_withFields, List.foldl_append, List.filter_append, ← List.append_assoc]
  rfl

theorem absorb_eq_enterAll (h : Fits dialect m) (e : Envelope) :
    absorb dialect e m = .ok (enterAll dialect e [m]) := by
  rw [absorb_of_fits h, enterAll, List.filter_singleton]
  cases isField dialect m <;> rfl

theorem scanMembers_of_scans (h : Scans dialect first cs ms rest) (e : Envelope) (rounds : Nat) :
    scanMembers dialect (ms.length + rounds) first e cs =
      scanMembers dialect rounds (first && ms.isEmpty) (enterAll dialect e ms) rest := by
  obtain ⟨hpass, hfits⟩ := h
  induction hpass generalizing e with
  | done => simp [enterAll_nil]
  | @member first k v ms cs cs₁ cs₂ cs₃ rest hkey hcolon hv _ ih =>
    have hrest := ih (enterAll dialect e [(k, v)]) fun m hm => hfits m (.tail _ hm)
    rw [← enterAll_append] at hrest
    rw [List.length_cons, Nat.succ_add, scanMembers_more hkey hcolon hv,
      absorb_eq_enterAll (hfits _ List.mem_cons_self)]
    simpa using hrest

/-- A value that cannot be read as a tree stops the scan. -/
theorem scanMembers_of_value_error {key : String} {cs₁ cs₂ : List Char} {err : ReadError}
    (hkey : nextKey first cs = .ok (some key, cs₁)) (hcolon : colon cs₁ = .ok ((), cs₂))
    (hv : value (maxDepth - 1) cs₂ = .error err) :
    (scanMembers dialect (rounds + 1) first e cs).1 = e := by
  rw [scanMembers, hkey]
  dsimp only
  rw [hcolon]
  dsimp only
  split
  next slot _ =>
    split
    next => rfl
    next d cs₃ hread =>
      obtain ⟨v, hok⟩ := slot.readsTrees.value_of_read hread
      cases hv.symm.trans hok
  next =>
    rw [hv]

/-- In one round the scan takes one member in, or is stopped, or has come to the end. -/
theorem scanMembers_cases (dialect : Dialect) (rounds : Nat) (first : Bool) (e : Envelope)
    (cs : List Char) :
    (scanMembers dialect (rounds + 1) first e cs).1 = e ∨
      ∃ k v cs₁ cs₂ cs₃, nextKey first cs = .ok (some k, cs₁) ∧ colon cs₁ = .ok ((), cs₂) ∧
        value (maxDepth - 1) cs₂ = .ok (v, cs₃) ∧ Fits dialect (k, v) ∧
        scanMembers dialect (rounds + 1) first e cs =
          scanMembers dialect rounds false (enterAll dialect e [(k, v)]) cs₃ := by
  rcases hkey : nextKey first cs with err | ⟨_ | k, cs₁⟩
  · exact .inl (by rw [scanMembers, hkey])
  · exact .inl (by rw [scanMembers, hkey])
  rcases hcolon : colon cs₁ with err | ⟨⟨⟩, cs₂⟩
  · refine .inl ?_
    rw [scanMembers, hkey]
    dsimp only
    rw [hcolon]
  rcases hv : value (maxDepth - 1) cs₂ with err | ⟨v, cs₃⟩
  · exact .inl (scanMembers_of_value_error hkey hcolon hv)
  rw [scanMembers_more hkey hcolon hv]
  by_cases hfits : Fits dialect (k, v)
  · rw [absorb_eq_enterAll hfits]
    exact .inr ⟨k, v, cs₁, cs₂, cs₃, rfl, hcolon, hv, hfits, rfl⟩
  · obtain ⟨err, herr⟩ := absorb_of_not_fits hfits e
    rw [herr]
    exact .inl rfl

/-- Wherever the scan is stopped, it has taken in the members up to there. -/
theorem exists_scans (dialect : Dialect) (rounds : Nat) (first : Bool) (e : Envelope)
    (cs : List Char) :
    ∃ ms rest, Scans dialect first cs ms rest ∧
      (scanMembers dialect rounds first e cs).1 = enterAll dialect e ms := by
  induction rounds generalizing first e cs with
  | zero => exact ⟨[], cs, ⟨.done, nofun⟩, enterAll_nil.symm⟩
  | succ rounds ih =>
    rcases scanMembers_cases dialect rounds first e cs with hstop |
      ⟨k, v, cs₁, cs₂, cs₃, hkey, hcolon, hv, hfits, hmore⟩
    · exact ⟨[], cs, ⟨.done, nofun⟩, hstop.trans enterAll_nil.symm⟩
    · obtain ⟨ms, rest, ⟨hpass, hall⟩, he⟩ := ih false (enterAll dialect e [(k, v)]) cs₃
      refine ⟨(k, v) :: ms, rest, ⟨.member hkey hcolon hv hpass, ?_⟩, ?_⟩
      · exact fun m hm => (List.mem_cons.mp hm).elim (fun h => h ▸ hfits) (hall m)
      · rw [hmore, he, ← enterAll_append]
        rfl

/-- Blanks before the comma do not count. -/
theorem Scans.of_spaces {sp : List Char} (hsp : ∀ b ∈ sp, isSpace b = true)
    (h : Scans dialect first (sp ++ ',' :: cs) ms rest) :
    ∃ rest, Scans dialect first (',' :: cs) ms rest := by
  obtain ⟨hpass, hfits⟩ := h
  cases hpass with
  | done => exact ⟨_, .done, hfits⟩
  | member hkey hcolon hv hrest =>
    refine ⟨rest, .member ?_ hcolon hv hrest, hfits⟩
    rw [← hkey]
    unfold nextKey
    rw [skipSpace_spaces hsp (by decide), skipSpace_cons (by decide)]

end

section
variable {dialect : Dialect} {head text : String} {cs : List Char} {ms : List (String × Json)}

theorem scanText_of_brace (dialect : Dialect) (hs : skipSpace text.toList = '\x7b' :: cs) :
    (scanText dialect text).1 =
      (scanMembers dialect (cs.length + 1) true { inObject := true } cs).1 := by
  unfold scanText
  split
  next hnil => cases hs.symm.trans hnil
  next ds hs' =>
    cases hs.symm.trans hs'
    split
    next hscan => rw [hscan]
    next hscan =>
      rw [hscan]
      split <;> rfl
  next hne => exact absurd hs (hne cs)

/-- The scan passes over the members before a comma and goes on behind it. -/
theorem scanText_behind (tail : String) (h : parseMembers (head ++ "\x7d") = .ok ms)
    (hne : ms ≠ []) (hfits : ∀ m ∈ ms, Fits dialect m) :
    ∃ ns rest, Scans dialect false (',' :: tail.toList) ns rest ∧
      (scanText dialect (head ++ "," ++ tail)).1 =
        enterAll dialect { inObject := true } (ms ++ ns) := by
  obtain ⟨sp, body, sp', hsp, hsp', hhead, hlen, hpass⟩ := passes_of_parseMembers h
  have htext : skipSpace (head ++ "," ++ tail).toList =
      '\x7b' :: (body ++ (sp' ++ ',' :: tail.toList)) := by
    rw [String.toList_append, String.toList_append, hhead]
    simpa using skipSpace_spaces hsp (show isSpace '\x7b' = false by decide)
      (body ++ (sp' ++ ',' :: tail.toList))
  obtain ⟨rounds, hrounds⟩ : ∃ rounds,
      (body ++ (sp' ++ ',' :: tail.toList)).length + 1 = ms.length + rounds :=
    Nat.exists_eq_add_of_le (by rw [List.length_append]; omega)
  rw [scanText_of_brace dialect htext, hrounds, scanMembers_of_scans ⟨hpass tail.toList, hfits⟩,
    List.isEmpty_eq_false_iff.mpr hne]
  obtain ⟨ns, rest, hscans, he⟩ := exists_scans dialect rounds false
    (enterAll dialect { inObject := true } ms) (sp' ++ ',' :: tail.toList)
  obtain ⟨rest', hscans'⟩ := hscans.of_spaces hsp'
  exact ⟨ns, rest', hscans', he.trans enterAll_append.symm⟩

end

end Envelope
end RpcPeer
