import RpcPeer.Proofs.Json.Beginning

/-! Scalars read from text. -/
namespace RpcPeer.Shape
open Json Steps

/-- A text is read as this shape by reading it as a tree that is then decoded, unless it is no
text of a tree at all. -/
structure ReadsTrees (s : Shape) : Prop where
  read_eq {depth : Nat} {cs rest : List Char} {v : Json} (h : value depth cs = .ok (v, rest)) :
    s.read depth cs = readTree depth s.decode cs
  value_of_read {depth : Nat} {cs rest : List Char} {d : Datum}
    (h : s.read depth cs = .ok (d, rest)) : ∃ v, value depth cs = .ok (v, rest)

section
variable {depth : Nat} {cs ds rest : List Char} {c : Char} {v : Json} {d : Datum}
  {decode : Json → Except DataError Datum}

theorem value_of_readTree {depth : Nat} (h : readTree depth decode cs = .ok (d, rest)) :
    ∃ v, value depth cs = .ok (v, rest) := by
  obtain ⟨⟨v, tail⟩, hv, h⟩ := bind_eq_ok.mp h
  dsimp only at h
  split at h
  · cases h
    exact ⟨v, hv⟩
  · cases h

theorem readTree_of_value (decode : Json → Except DataError Datum)
    (h : value depth cs = .ok (v, rest)) :
    readTree depth decode cs = match decode v with
      | .ok d => .ok (d, rest)
      | .error e => .error (.data e) := by
  rw [readTree, h]
  rfl

theorem value_null (hs : skipSpace cs = 'n' :: ds) :
    value depth cs = (ident ['u', 'l', 'l'] ds).map fun cs => (null, cs) := by
  obtain ⟨nested, hn⟩ := value_eq_valueOver depth
  rw [hn]
  unfold valueOver
  rw [hs]
  rfl

theorem mismatchAt_of_value (hs : skipSpace cs = c :: ds) (h : value depth cs = .ok (v, rest))
    (expected : String) : mismatchAt expected (c :: ds) = .data (v.mismatch expected) := by
  obtain ⟨c', ds', hs', hb⟩ := begins_of_value h
  obtain ⟨rfl, rfl⟩ := List.cons.inj (hs'.symm.trans hs)
  unfold mismatchAt
  split
  next he =>
    obtain ⟨rfl, -⟩ := List.cons.inj he
    cases hb with
    | arr => rfl
    | number start => exact absurd start (by decide)
  next he =>
    obtain ⟨rfl, -⟩ := List.cons.inj he
    cases hb with
    | obj => rfl
    | number start => exact absurd start (by decide)
  next hlist hobj =>
    have hc₁ : c' ≠ '[' := fun he => hlist ds' (he ▸ rfl)
    have hc₂ : c' ≠ '\x7b' := fun he => hobj ds' (he ▸ rfl)
    rw [value_zero_eq depth hs hc₁ hc₂, h]
    rfl

variable {starts : Char → Bool} {expected : String}

theorem ne_of_starts (h : starts c = true) {e : Char} (he : starts e = false) : c ≠ e := by
  rintro rfl
  exact Bool.noConfusion (h.symm.trans he)

theorem readSimple_eq (hlist : starts '[' = false) (hobj : starts '\x7b' = false)
    (hdecode : ∀ c v, Begins c v → starts c = false → decode v = .error (v.mismatch expected))
    (h : value depth cs = .ok (v, rest)) :
    readSimple starts expected decode cs = readTree depth decode cs := by
  obtain ⟨c, ds, hs, hb⟩ := begins_of_value h
  unfold readSimple startingWith
  rw [hs]
  dsimp only
  split_ifs with hc
  · rw [value_zero_eq depth hs (ne_of_starts hc hlist) (ne_of_starts hc hobj)]
    rfl
  · rw [mismatchAt_of_value hs h, readTree_of_value decode h,
      hdecode c v hb (Bool.eq_false_iff.mpr hc)]

theorem value_of_readSimple (hlist : starts '[' = false) (hobj : starts '\x7b' = false)
    (h : readSimple starts expected decode cs = .ok (d, rest)) :
    ∃ v, value depth cs = .ok (v, rest) := by
  unfold readSimple startingWith at h
  match hs : skipSpace cs with
  | [] =>
    rw [hs] at h
    cases h
  | c :: ds =>
    rw [hs] at h
    dsimp only at h
    split_ifs at h with hc
    rw [← value_zero_eq depth hs (ne_of_starts hc hlist) (ne_of_starts hc hobj)]
    exact value_of_readTree (h : readTree 0 decode (c :: ds) = .ok (d, rest))

end

namespace ReadsTrees

theorem text : ReadsTrees text where
  read_eq h := by
    refine readSimple_eq rfl rfl ?_ h
    intro c v hb hc
    cases hb with
    | str => exact absurd hc (by decide)
    | number _ hn => cases v <;> first | exact hn.elim | rfl
    | _ => rfl
  value_of_read h := value_of_readSimple rfl rfl h

theorem bool : ReadsTrees bool where
  read_eq h := by
    refine readSimple_eq rfl rfl ?_ h
    intro c v hb hc
    cases hb with
    | yes | no => exact absurd hc (by decide)
    | number _ hn => cases v <;> first | exact hn.elim | rfl
    | _ => rfl
  value_of_read h := value_of_readSimple rfl rfl h

theorem int (k : IntKind) : ReadsTrees (int k) where
  read_eq h := by
    refine readSimple_eq rfl rfl ?_ h
    intro c v hb hc
    cases hb with
    | number hs => exact Bool.noConfusion (hs.symm.trans hc)
    | _ => rfl
  value_of_read h := value_of_readSimple rfl rfl h

theorem id : ReadsTrees id where
  read_eq _ := rfl
  value_of_read h := value_of_readTree h

theorem option {s : Shape} (hs : ReadsTrees s) : ReadsTrees (option s) where
  read_eq {depth cs rest v} h := by
    obtain ⟨c, ds, hc, hb⟩ := begins_of_value h
    rw [readTree_of_value _ h]
    unfold read
    rw [hc]
    split
    next he =>
      obtain ⟨rfl, rfl⟩ := List.cons.inj he
      rw [value_null hc] at h
      obtain ⟨tail, ht, he⟩ := map_eq_ok.mp h
      cases he
      rw [ht]
      rfl
    next hn =>
      have hnull : v.isNull = false := by
        cases hb with
        | null => exact absurd rfl (hn ds)
        | number _ hn => cases v <;> first | exact hn.elim | rfl
        | _ => rfl
      rw [← hc, hs.read_eq ((value_skipSpace depth cs).trans h),
        readTree_of_value _ ((value_skipSpace depth cs).trans h), decode, hnull]
      rfl
  value_of_read {depth cs rest d} h := by
    unfold read at h
    split at h
    next ds hc =>
      obtain ⟨tail, ht, he⟩ := map_eq_ok.mp h
      cases he
      refine ⟨null, ?_⟩
      rw [value_null hc, ht]
      rfl
    next =>
      rw [← value_skipSpace]
      exact hs.value_of_read h

end ReadsTrees
end RpcPeer.Shape
