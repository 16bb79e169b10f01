import RpcPeer.Proofs.Json.Beginning
import RpcPeer.Proofs.Json.Tree

/-! The members of an object as its text gives them: in their order, equal names included. -/
namespace RpcPeer.Json
open Steps

/-- Reads an object without making a tree of it. -/
def object : Reader (List (String × Json)) := fun cs =>
  match skipSpace cs with
  | '\x7b' :: cs => members (value (maxDepth - 1)) cs
  | _ => .error .expectedValue

def parseMembers (text : String) : Except ReadError (List (String × Json)) := whole object text

theorem whole_eq_ok {α : Type} {reader : Reader α} {text : String} {x : α} :
    whole reader text = .ok x ↔
      ∃ rest, reader text.toList = .ok (x, rest) ∧ finish rest = .ok () := by
  constructor
  · intro h
    obtain ⟨⟨y, rest⟩, hread, h⟩ := bind_eq_ok.mp h
    obtain ⟨⟨⟩, hend, h⟩ := bind_eq_ok.mp h
    cases h
    exact ⟨rest, hread, hend⟩
  · rintro ⟨rest, hread, hend⟩
    simp only [whole, hread, hend, ok_bind, pure_eq]

section
variable {cs ds rest : List Char} {ms : List (String × Json)}

theorem object_of_brace (hs : skipSpace cs = '\x7b' :: ds) :
    object cs = members (value (maxDepth - 1)) ds := by
  unfold object
  rw [hs]
  rfl

theorem value_of_brace (hs : skipSpace cs = '\x7b' :: ds) :
    value maxDepth cs =
      (members (value (maxDepth - 1)) ds).map fun (ms, cs) => (ofMembers ms, cs) := by
  change valueOver (some (value (maxDepth - 1))) cs = _
  unfold valueOver
  rw [hs]
  rfl

/-- What reading the members of an object comes to, round by round. -/
theorem membersWithin_cases {α : Type} {item : Reader α} {rounds : Nat} {first : Bool}
    {ms : List (String × α)} (h : membersWithin item (rounds + 1) first cs = .ok (ms, rest)) :
    (∃ cs₁, nextKey first cs = .ok (none, cs₁) ∧ endMembers cs₁ = .ok ((), rest) ∧ ms = []) ∨
      ∃ k x ns cs₁ cs₂ cs₃, nextKey first cs = .ok (some k, cs₁) ∧ colon cs₁ = .ok ((), cs₂) ∧
        item cs₂ = .ok (x, cs₃) ∧ membersWithin item rounds false cs₃ = .ok (ns, rest) ∧
        ms = (k, x) :: ns := by
  obtain ⟨⟨key, cs₁⟩, hkey, h⟩ := bind_eq_ok.mp h
  cases key with
  | none =>
    obtain ⟨⟨⟨⟩, tail⟩, hend, h⟩ := bind_eq_ok.mp h
    cases h
    exact .inl ⟨cs₁, hkey, hend, rfl⟩
  | some k =>
    obtain ⟨⟨⟨⟩, cs₂⟩, hcolon, h⟩ := bind_eq_ok.mp h
    obtain ⟨⟨x, cs₃⟩, hitem, h⟩ := bind_eq_ok.mp h
    obtain ⟨⟨ns, tail⟩, hrest, h⟩ := bind_eq_ok.mp h
    cases h
    exact .inr ⟨k, x, ns, cs₁, cs₂, cs₃, hkey, hcolon, hitem, hrest, rfl⟩

theorem obj_of_brace {v : Json} (hs : skipSpace cs = '\x7b' :: ds)
    (h : value maxDepth cs = .ok (v, rest)) : ∃ l, v = obj l := by
  rw [value_of_brace hs] at h
  obtain ⟨⟨ms, tail⟩, -, he⟩ := map_eq_ok.mp h
  exact ⟨arrange ms, (congrArg Prod.fst he).symm⟩

theorem brace_of_object (h : object cs = .ok (ms, rest)) : ∃ ds, skipSpace cs = '\x7b' :: ds := by
  unfold object at h
  split at h
  next ds hs => exact ⟨ds, hs⟩
  next => cases h

end

section
variable {text : String} {ms l : List (String × Json)}

theorem parse_of_parseMembers (h : parseMembers text = .ok ms) :
    parse text = .ok (ofMembers ms) := by
  obtain ⟨rest, hread, hend⟩ := whole_eq_ok.mp h
  obtain ⟨ds, hs⟩ := brace_of_object hread
  rw [object_of_brace hs] at hread
  refine whole_eq_ok.mpr ⟨rest, ?_, hend⟩
  rw [value_of_brace hs, hread]
  rfl

/-- Every text of an object is one of members. -/
theorem exists_parseMembers (h : parse text = .ok (obj l)) :
    ∃ ms, parseMembers text = .ok ms ∧ ofMembers ms = obj l := by
  obtain ⟨rest, hread, hend⟩ := whole_eq_ok.mp h
  obtain ⟨c, ds, hs, hb⟩ := begins_of_value hread
  cases hb with
  | obj =>
    rw [value_of_brace hs] at hread
    obtain ⟨⟨ms, tail⟩, hms, he⟩ := map_eq_ok.mp hread
    have htree : ofMembers ms = obj l := congrArg Prod.fst he
    have htail : tail = rest := congrArg Prod.snd he
    refine ⟨ms, whole_eq_ok.mpr ⟨rest, ?_, hend⟩, htree⟩
    rw [object_of_brace hs, hms, htail]
  | number _ hn => exact hn.elim

end

end RpcPeer.Json
