import RpcPeer.Proofs.Dialect.Identity

/-! What an object with distinct names says in its envelope. -/
namespace RpcPeer
open Json

/-- What stands in this part of the envelope is the value that the slot was filled with; `null`
leaves it empty. -/
structure Slot.Shows {α : Type} (slot : Slot) (p : Envelope → Option α) (tree : α → Json) : Prop
    extends slot.Governs p where
  fill : ∀ {v d}, slot.shape.decode v = .ok d → ∀ e : Envelope,
    (p (e.fill slot d)).map tree = present (some v)

/-- The shape of an id takes `null` and what an id may be read from. -/
theorem Slot.decode_id_eq_ok {v : Json} {d : Datum} (h : Slot.id.shape.decode v = .ok d) :
    v = .null ∧ d = .absent ∨ ∃ id : MessageId, v = id.toJson ∧ d = id.toDatum := by
  by_cases hnull : v = .null
  · subst hnull
    cases h
    exact .inl ⟨rfl, rfl⟩
  · have hdecode : Shape.decodeId v = .ok d := by
      cases v with
      | null => exact absurd rfl hnull
      | _ => exact h
    exact .inr (Shape.decodeId_eq_ok hdecode)

namespace Slot.Shows

theorem version : Slot.version.Shows Envelope.version .str where
  frame e other d h := by cases other <;> first | rfl | exact absurd rfl h
  fields _ _ := rfl
  fill h e := by
    obtain ⟨s, rfl, rfl⟩ := Shape.decode_text_eq_ok h
    rfl

theorem method : Slot.method.Shows Envelope.method .str where
  toGoverns := .method
  fill h e := by
    obtain ⟨s, rfl, rfl⟩ := Shape.decode_text_eq_ok h
    rfl

theorem kind : Slot.kind.Shows Envelope.kind .str where
  toGoverns := .kind
  fill h e := by
    obtain ⟨s, rfl, rfl⟩ := Shape.decode_text_eq_ok h
    rfl

theorem seq : Slot.seq.Shows Envelope.seq fun n => .int n.toInt where
  toGoverns := .seq
  fill h e := by
    obtain ⟨n, rfl, rfl⟩ := Shape.decodeInt_int64_eq_ok h
    exact congrArg (fun k : Int64 => some (Json.int k.toInt)) (Int64.ofInt_toInt n)

theorem requestSeq : Slot.requestSeq.Shows Envelope.requestSeq fun n => .int n.toInt where
  frame e other d h := by cases other <;> first | rfl | exact absurd rfl h
  fields _ _ := rfl
  fill h e := by
    obtain ⟨n, rfl, rfl⟩ := Shape.decodeInt_int64_eq_ok h
    exact congrArg (fun k : Int64 => some (Json.int k.toInt)) (Int64.ofInt_toInt n)

theorem id : Slot.id.Shows Envelope.id MessageId.toJson where
  toGoverns := .id
  fill h e := by
    rcases decode_id_eq_ok h with ⟨rfl, rfl⟩ | ⟨id, rfl, rfl⟩
    · rfl
    · change (MessageId.ofDatum? id.toDatum).map _ = _
      rw [MessageId.ofDatum?_toDatum]
      cases id <;> rfl

theorem success : Slot.success.Shows Envelope.success .bool where
  frame e other d h := by cases other <;> first | rfl | exact absurd rfl h
  fields _ _ := rfl
  fill {v d} h e := by
    cases v with
    | bool b =>
      cases h
      rfl
    | _ => cases h

theorem message : Slot.message.Shows Envelope.message .str where
  frame e other d h := by cases other <;> first | rfl | exact absurd rfl h
  fields _ _ := rfl
  fill {v d} h e := by
    cases v with
    | null | str s =>
      cases h
      rfl
    | _ => cases h

section
variable {α : Type} {slot : Slot} {p : Envelope → Option α} {tree : α → Json} {dialect : Dialect}
  {name : String} {v : Json} {l front back : List (String × Json)}

theorem of_last (h : slot.Shows p tree) (hname : Slot.ofKey? dialect name = some slot)
    (hfits : Envelope.Fits dialect (name, v))
    (hback : ∀ m ∈ back, Slot.ofKey? dialect m.1 ≠ some slot) (e : Envelope) :
    (p (Envelope.enterAll dialect e (front ++ (name, v) :: back))).map tree =
      present (some v) := by
  obtain ⟨d, hd⟩ := hfits slot hname
  have hsplit : front ++ (name, v) :: back = front ++ ([(name, v)] ++ back) := rfl
  have henter : Envelope.enter dialect (Envelope.enterAll dialect e front) (name, v) =
      (Envelope.enterAll dialect e front).fill slot d := by
    dsimp only at hd
    simp only [Envelope.enter, hname, hd]
  rw [hsplit, Envelope.enterAll_append, Envelope.enterAll_append,
    h.toGoverns.enterAll_of_ne hback, Envelope.enterAll, h.fields, List.foldl_cons,
    List.foldl_nil, henter, h.fill hd]

/-- The slot shows the value of its name, if no other name goes to it. -/
theorem eq_present (h : slot.Shows p tree) (hname : Slot.ofKey? dialect name = some slot)
    (halone : ∀ m ∈ l, Slot.ofKey? dialect m.1 = some slot → m.1 = name)
    (hl : (l.map (·.1)).Nodup) (hfits : ∀ m ∈ l, Envelope.Fits dialect m) {e : Envelope}
    (he : p e = none) :
    (p (Envelope.enterAll dialect e l)).map tree = present (l.lookup name) := by
  cases hv : l.lookup name with
  | none =>
    have hnone : ∀ m ∈ l, Slot.ofKey? dialect m.1 ≠ some slot := by
      intro m hm hslot
      have hmem : (name, m.2) ∈ l := halone m hm hslot ▸ hm
      rw [(lookup_eq_some_iff_mem hl).mpr hmem] at hv
      cases hv
    rw [h.toGoverns.enterAll_of_ne hnone, he]
    rfl
  | some v =>
    obtain ⟨front, back, rfl⟩ := List.append_of_mem ((lookup_eq_some_iff_mem hl).mp hv)
    refine h.of_last hname (hfits _ (by simp)) (fun m hm hslot => ?_) e
    -- a later member would have the same name
    have hback : m.1 = name := halone m (by simp [hm]) hslot
    rw [List.map_append, List.map_cons, List.nodup_append, List.nodup_cons] at hl
    exact hl.2.1.1 (List.mem_map.mpr ⟨m, hm, hback⟩)

/-- The slot shows the last value of its name. -/
theorem eq_present_lastOf (h : slot.Shows p tree) (hname : Slot.ofKey? dialect name = some slot)
    (halone : ∀ m ∈ l, Slot.ofKey? dialect m.1 = some slot → m.1 = name)
    (hfits : ∀ m ∈ l, Envelope.Fits dialect m) {e : Envelope} (he : p e = none) :
    (p (Envelope.enterAll dialect e l)).map tree = present (Envelope.lastOf l name) := by
  cases hv : Envelope.lastOf l name with
  | none =>
    have hnone : ∀ m ∈ l, Slot.ofKey? dialect m.1 ≠ some slot := by
      intro m hm hslot
      have hne := List.lookup_eq_none_iff.mp hv m (List.mem_reverse.mpr hm)
      exact bne_iff_ne.mp hne (halone m hm hslot).symm
    rw [h.toGoverns.enterAll_of_ne hnone, he]
    rfl
  | some v =>
    obtain ⟨front, back, rfl, hback⟩ := Envelope.lastOf_eq_some hv
    refine h.of_last hname (hfits _ (by simp)) (fun m hm hslot => ?_) e
    exact hback m hm (halone m (by simp [hm]) hslot)

/-- A slot that takes no `null` is empty only if there is nothing under its name. -/
theorem eq_lookup (h : slot.Shows p tree) (hname : Slot.ofKey? dialect name = some slot)
    (hnull : ∀ d, slot.shape.decode .null ≠ .ok d)
    (halone : ∀ m ∈ l, Slot.ofKey? dialect m.1 = some slot → m.1 = name)
    (hl : (l.map (·.1)).Nodup) (hfits : ∀ m ∈ l, Envelope.Fits dialect m) {e : Envelope}
    (he : p e = none) :
    (p (Envelope.enterAll dialect e l)).map tree = l.lookup name := by
  rw [h.eq_present hname halone hl hfits he]
  rcases present_cases (l.lookup name) with ⟨-, hnone | hsome⟩ | ⟨v, hv, hsome⟩
  · rw [hnone]
    rfl
  · obtain ⟨d, hd⟩ := hfits _ ((lookup_eq_some_iff_mem hl).mp hsome) slot hname
    exact absurd hd (hnull d)
  · rw [hv, hsome]

end
end Slot.Shows

namespace Envelope

variable {dialect : Dialect} {name : String} {e : Envelope} {l : List (String × Json)}

theorem fits_iff_lookup (hl : (l.map (·.1)).Nodup) :
    (∀ m ∈ l, Fits dialect m) ↔ ∀ name slot v, Slot.ofKey? dialect name = some slot →
      l.lookup name = some v → ∃ d, slot.shape.decode v = .ok d := by
  constructor
  · intro h name slot v hname hv
    exact h _ ((lookup_eq_some_iff_mem hl).mp hv) slot hname
  · intro h m hm slot hname
    exact h m.1 slot m.2 hname ((lookup_eq_some_iff_mem hl).mpr hm)

theorem scanValue_of_fits (h : ∀ m ∈ l, Fits dialect m) :
    scanValue dialect (.obj l) = (enterAll dialect { inObject := true } l, none) :=
  scanTree_of_fits h _

theorem lookup_filter {p : String → Bool} (hname : p name = true) :
    (l.filter fun m => p m.1).lookup name = l.lookup name := by
  induction l with
  | nil => rfl
  | cons m l ih =>
    rw [List.filter_cons, ← Prod.mk.eta (p := m), lookup_cons_eq]
    by_cases hm : name = m.1
    · rw [if_pos hm, ← hm, hname, if_pos rfl, lookup_cons_eq, if_pos rfl]
    · rw [if_neg hm]
      split
      · rw [lookup_cons_eq, if_neg hm, ih]
      · exact ih

theorem lookup_filter_isField (hname : Slot.ofKey? dialect name = none) :
    (l.filter (isField dialect)).lookup name = l.lookup name :=
  lookup_filter (p := fun key => (Slot.ofKey? dialect key).isNone) (by rw [hname]; rfl)

/-- A field shows the value of its name, but for `null`. -/
theorem takeField_enterAll (hname : Slot.ofKey? dialect name = none) (he : e.fields = []) :
    (enterAll dialect e l).takeField name = present (l.lookup name) := by
  rw [takeField_eq]
  change present ((e.fields ++ l.filter (isField dialect)).lookup name) = _
  rw [he, List.nil_append, lookup_filter_isField hname]

end Envelope
end RpcPeer
