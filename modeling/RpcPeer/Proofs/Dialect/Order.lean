import Mathlib.Data.List.Nodup
import RpcPeer.Proofs.Dialect.Scanning

/-! Members of a message that may change their order. -/
namespace RpcPeer
namespace Envelope
open Json

/-- No two members go to one slot. -/
def Apart (dialect : Dialect) (ms : List (String × Json)) : Prop :=
  ∀ m ∈ ms, ∀ n ∈ ms, ∀ slot, Slot.ofKey? dialect m.1 = some slot →
    Slot.ofKey? dialect n.1 = some slot → m = n

/-- The scan is not stopped by this member. -/
def Fits (dialect : Dialect) (m : String × Json) : Prop :=
  ∀ slot, Slot.ofKey? dialect m.1 = some slot → ∃ d, slot.shape.decode m.2 = .ok d

def isField (dialect : Dialect) (m : String × Json) : Bool := (Slot.ofKey? dialect m.1).isNone

def withFields (e : Envelope) (fields : List (String × Json)) : Envelope := { e with fields }

/-- What a member does to the slots. -/
def enter (dialect : Dialect) (e : Envelope) (m : String × Json) : Envelope :=
  match Slot.ofKey? dialect m.1 with
  | none => e
  | some slot =>
    match slot.shape.decode m.2 with
    | .ok d => e.fill slot d
    | .error _ => e

section
variable {dialect : Dialect} {e : Envelope} {m : String × Json} {ms ns l : List (String × Json)}

theorem fill_withFields (e : Envelope) (l : List (String × Json)) (slot : Slot) (d : Datum) :
    (e.withFields l).fill slot d = (e.fill slot d).withFields l := by
  cases slot <;> rfl

theorem fields_fill (e : Envelope) (slot : Slot) (d : Datum) :
    (e.fill slot d).fields = e.fields := by
  cases slot <;> rfl

theorem inObject_fill (e : Envelope) (slot : Slot) (d : Datum) :
    (e.fill slot d).inObject = e.inObject := by
  cases slot <;> rfl

theorem fill_comm (e : Envelope) {a b : Slot} (h : a ≠ b) (c d : Datum) :
    (e.fill a c).fill b d = (e.fill b d).fill a c := by
  cases a <;> cases b <;> first | exact absurd rfl h | rfl

theorem enter_withFields (e : Envelope) (l : List (String × Json)) (m : String × Json) :
    enter dialect (e.withFields l) m = (enter dialect e m).withFields l := by
  unfold enter
  split
  · rfl
  · split
    · exact fill_withFields e l _ _
    · rfl

theorem foldl_enter_withFields (e : Envelope) (l ms : List (String × Json)) :
    ms.foldl (enter dialect) (e.withFields l) = (ms.foldl (enter dialect) e).withFields l := by
  induction ms generalizing e with
  | nil => rfl
  | cons m ms ih => rw [List.foldl_cons, List.foldl_cons, enter_withFields, ih]

theorem inObject_enter (e : Envelope) (m : String × Json) :
    (enter dialect e m).inObject = e.inObject := by
  unfold enter
  split
  · rfl
  · split
    · exact inObject_fill e _ _
    · rfl

theorem enter_comm (e : Envelope) {m n : String × Json}
    (h : ∀ slot, Slot.ofKey? dialect m.1 = some slot → Slot.ofKey? dialect n.1 ≠ some slot) :
    enter dialect (enter dialect e m) n = enter dialect (enter dialect e n) m := by
  unfold enter
  cases hm : Slot.ofKey? dialect m.1 with
  | none => rfl
  | some a =>
    cases hn : Slot.ofKey? dialect n.1 with
    | none => rfl
    | some b =>
      have hab : a ≠ b := fun he => h a hm (he ▸ hn)
      dsimp only
      cases a.shape.decode m.2 <;> cases b.shape.decode n.2 <;>
        first | rfl | exact fill_comm e hab _ _

theorem foldl_enter_perm (ha : Apart dialect ms) (hp : ms.Perm ns) (e : Envelope) :
    ms.foldl (enter dialect) e = ns.foldl (enter dialect) e := by
  refine hp.foldl_eq' (fun m hm n hn e => ?_) e
  by_cases hmn : m = n
  · rw [hmn]
  · refine enter_comm e fun slot hslot hslot' => hmn ?_
    exact ha m hm n hn slot hslot hslot'

theorem absorb_of_fits (h : Fits dialect m) (e : Envelope) :
    absorb dialect e m = .ok ((enter dialect e m).withFields
      (e.fields ++ if isField dialect m then [m] else [])) := by
  obtain ⟨key, v⟩ := m
  cases hslot : Slot.ofKey? dialect key with
  | none =>
    rw [absorb_field hslot]
    simp [enter, isField, hslot, addField, withFields]
  | some slot =>
    obtain ⟨d, hd⟩ := h slot hslot
    dsimp only at hd
    rw [absorb_slot hslot, hd]
    simp [enter, isField, hslot, hd, withFields, Except.map, ← fields_fill e slot d]

theorem absorb_of_not_fits (h : ¬ Fits dialect m) (e : Envelope) :
    ∃ err, absorb dialect e m = .error err := by
  obtain ⟨key, v⟩ := m
  simp only [Fits, not_forall] at h
  obtain ⟨slot, hslot, hd⟩ := h
  rw [absorb_slot hslot]
  cases hv : slot.shape.decode v with
  | ok d => exact absurd ⟨d, hv⟩ hd
  | error err => exact ⟨err, rfl⟩

theorem scanTree_of_fits (h : ∀ m ∈ ms, Fits dialect m) (e : Envelope) :
    scanTree dialect e ms =
      ((ms.foldl (enter dialect) e).withFields (e.fields ++ ms.filter (isField dialect)),
        none) := by
  induction ms generalizing e with
  | nil =>
    rw [List.filter_nil, List.append_nil]
    rfl
  | cons m ms ih =>
    rw [scanTree_cons, absorb_of_fits (h m List.mem_cons_self)]
    dsimp only
    rw [ih fun n hn => h n (.tail _ hn), foldl_enter_withFields, List.foldl_cons, List.filter_cons]
    cases isField dialect m <;> simp [withFields]

theorem scanTree_of_not_fits (h : ¬ ∀ m ∈ ms, Fits dialect m) (e : Envelope) :
    ∃ e' err, scanTree dialect e ms = (e', some (.data err)) ∧ e'.inObject = e.inObject := by
  induction ms generalizing e with
  | nil => exact absurd (fun m hm => absurd hm List.not_mem_nil) h
  | cons m ms ih =>
    rw [scanTree_cons]
    by_cases hm : Fits dialect m
    · have hrest : ¬ ∀ n ∈ ms, Fits dialect n := by
        intro hall
        exact h fun n hn => (List.mem_cons.mp hn).elim (fun he => he ▸ hm) (hall n)
      rw [absorb_of_fits hm]
      obtain ⟨e', err, hscan, hin⟩ := ih hrest _
      exact ⟨e', err, hscan, hin.trans (inObject_enter e m)⟩
    · obtain ⟨err, herr⟩ := absorb_of_not_fits hm e
      rw [herr]
      exact ⟨e, err, rfl, rfl⟩

theorem fits_of_scanTree (h : (scanTree dialect e ms).2 = none) : ∀ m ∈ ms, Fits dialect m := by
  by_contra hne
  obtain ⟨e', err, hscan, -⟩ := scanTree_of_not_fits hne e
  rw [hscan] at h
  cases h

/-- In another order the members stop the scan as well, or fill the same slots and leave the same
fields. -/
theorem scanTree_perm (ha : Apart dialect ms) (hp : ms.Perm ns) (e : Envelope) :
    (∃ f : Envelope,
        scanTree dialect e ms = (f.withFields (e.fields ++ ms.filter (isField dialect)), none) ∧
        scanTree dialect e ns = (f.withFields (e.fields ++ ns.filter (isField dialect)), none)) ∨
      ∃ (f g : Envelope) (x y : DataError), scanTree dialect e ms = (f, some (.data x)) ∧
        scanTree dialect e ns = (g, some (.data y)) ∧
        f.inObject = e.inObject ∧ g.inObject = e.inObject := by
  -- whether the scan is stopped does not depend on the order, only where and with which error
  by_cases h : ∀ m ∈ ms, Fits dialect m
  · have hn : ∀ n ∈ ns, Fits dialect n := fun n hn => h n (hp.mem_iff.mpr hn)
    refine .inl ⟨ms.foldl (enter dialect) e, scanTree_of_fits h e, ?_⟩
    rw [foldl_enter_perm ha hp]
    exact scanTree_of_fits hn e
  · have hn : ¬ ∀ n ∈ ns, Fits dialect n := fun hall => h fun m hm => hall m (hp.mem_iff.mp hm)
    obtain ⟨f, x, hf, hfin⟩ := scanTree_of_not_fits h e
    obtain ⟨g, y, hg, hgin⟩ := scanTree_of_not_fits hn e
    exact .inr ⟨f, g, x, y, hf, hg, hfin, hgin⟩

end

/-- The names of the members that go to a slot. -/
def slotNames : Dialect → Slot → List String
  | .base, .version => ["jsonrpc"]
  | .base, .id => ["id"]
  | .base, .method => ["method"]
  | .debug, .seq => ["seq"]
  | .debug, .requestSeq => ["request_seq"]
  | .debug, .kind => ["type"]
  | .debug, .method => ["command", "event"]
  | .debug, .success => ["success"]
  | .debug, .message => ["message"]
  | _, _ => []

theorem mem_slotNames {dialect : Dialect} {key : String} {slot : Slot}
    (h : Slot.ofKey? dialect key = some slot) : key ∈ slotNames dialect slot := by
  cases dialect <;> simp only [Slot.ofKey?] at h <;> split_ifs at h <;> cases h <;>
    simp_all [slotNames]

/-- All names differ, and in the debug dialect not both `command` and `event` are there, which name
the same thing. -/
def Distinct (dialect : Dialect) (ms : List (String × Json)) : Prop :=
  (ms.map (·.1)).Nodup ∧
    (dialect = .debug → ¬ ("command" ∈ ms.map (·.1) ∧ "event" ∈ ms.map (·.1)))

instance (dialect : Dialect) (ms : List (String × Json)) : Decidable (Distinct dialect ms) :=
  inferInstanceAs (Decidable (_ ∧ _))

section
variable {dialect : Dialect} {ms : List (String × Json)}

theorem Distinct.apart (h : Distinct dialect ms) : Apart dialect ms := by
  obtain ⟨hnodup, hdebug⟩ := h
  intro m hm n hn slot hslot hslot'
  -- a slot has one name, but for the two names of the method
  have hmn : m.1 = n.1 := by
    have hk := mem_slotNames hslot
    have hl := mem_slotNames hslot'
    have hm' : m.1 ∈ ms.map (·.1) := List.mem_map_of_mem hm
    have hn' : n.1 ∈ ms.map (·.1) := List.mem_map_of_mem hn
    cases dialect with
    | base => cases slot <;> simp_all [slotNames]
    | debug =>
      by_cases hs : slot = .method
      · subst hs
        simp only [slotNames, List.mem_cons, List.not_mem_nil, or_false] at hk hl
        rcases hk with hk | hk <;> rcases hl with hl | hl
        · exact hk.trans hl.symm
        · exact absurd ⟨hk ▸ hm', hl ▸ hn'⟩ (hdebug rfl)
        · exact absurd ⟨hl ▸ hn', hk ▸ hm'⟩ (hdebug rfl)
        · exact hk.trans hl.symm
      · cases slot <;> simp_all [slotNames]
  exact List.inj_on_of_nodup_map hnodup hm hn hmn

theorem Distinct.fields_nodup (h : Distinct dialect ms) :
    ((ms.filter (isField dialect)).map (·.1)).Nodup :=
  h.1.sublist (List.filter_sublist.map _)

end
end Envelope
end RpcPeer
