import Mathlib.Data.String.Basic
import RpcPeer.Json.Basic

/-! Objects with their members in the order of the names. -/
namespace RpcPeer.Json

mutual
theorem same_refl : ∀ v : Json, same v v = true
  | null => rfl
  | bool _ | int _ | str _ => by simp [same]
  | real _ => by simp [same, Binary64.same]
  | arr xs => by rw [same]; exact sameItems_refl xs
  | obj ms => by rw [same]; exact sameMembers_refl ms

theorem sameItems_refl : ∀ xs : List Json, sameItems xs xs = true
  | [] => rfl
  | x :: xs => by rw [sameItems, same_refl x, sameItems_refl xs]; rfl

theorem sameMembers_refl : ∀ ms : List (String × Json), sameMembers ms ms = true
  | [] => rfl
  | (k, v) :: ms => by
    rw [sameMembers, same_refl v, sameMembers_refl ms, beq_self_eq_true]
    rfl
end

instance : ReflBEq Json where
  rfl := same_refl _

/-- Every member comes before the later ones by its name. -/
def InOrder (ms : List (String × Json)) : Prop := ms.Pairwise fun a b => a.1 < b.1

instance (ms : List (String × Json)) : Decidable (InOrder ms) :=
  inferInstanceAs (Decidable (ms.Pairwise fun a b => a.1 < b.1))

/-- The members that an object is made of. -/
def arrange (ms : List (String × Json)) : List (String × Json) :=
  ms.foldl (fun acc (k, v) => insertMember k v acc) []

section
variable {name : String} {v : Json} {ms ns : List (String × Json)}

theorem mem_insertMember {m : String × Json} (h : m ∈ insertMember name v ms) :
    m = (name, v) ∨ m ∈ ms := by
  induction ms with
  | nil => exact .inl (List.mem_singleton.mp h)
  | cons n ns ih =>
    obtain ⟨k, w⟩ := n
    rw [insertMember] at h
    split_ifs at h with hlt heq
    · exact List.mem_cons.mp h
    · rcases List.mem_cons.mp h with h | h
      · exact .inl h
      · exact .inr (List.mem_cons_of_mem _ h)
    · rcases List.mem_cons.mp h with h | h
      · exact .inr (h ▸ List.mem_cons_self)
      · exact (ih h).imp_right (List.mem_cons_of_mem _)

theorem InOrder.insertMember (h : InOrder ms) : InOrder (insertMember name v ms) := by
  induction ms with
  | nil => exact List.pairwise_singleton _ _
  | cons n ns ih =>
    obtain ⟨k, w⟩ := n
    obtain ⟨hk, hns⟩ := List.pairwise_cons.mp h
    rw [Json.insertMember]
    split_ifs with hlt heq
    · refine List.pairwise_cons.mpr ⟨fun m hm => ?_, h⟩
      rcases List.mem_cons.mp hm with rfl | hm
      · exact hlt
      · exact String.lt_trans hlt (hk m hm)
    · exact List.pairwise_cons.mpr ⟨fun m hm => heq ▸ hk m hm, hns⟩
    · have hgt : k < name := lt_of_le_of_ne (not_lt.mp hlt) (Ne.symm heq)
      refine List.pairwise_cons.mpr ⟨fun m hm => ?_, ih hns⟩
      rcases mem_insertMember hm with rfl | hm
      · exact hgt
      · exact hk m hm

theorem insertMember_perm (h : name ∉ ms.map (·.1)) :
    (insertMember name v ms).Perm ((name, v) :: ms) := by
  induction ms with
  | nil => exact List.Perm.refl _
  | cons n ns ih =>
    obtain ⟨k, w⟩ := n
    rw [List.map_cons, List.mem_cons, not_or] at h
    rw [insertMember]
    split_ifs with hlt heq
    · exact List.Perm.refl _
    · exact absurd heq h.1
    · exact ((ih h.2).cons _).trans (List.Perm.swap _ _ _)

theorem mem_of_mem_foldl {m : String × Json} {acc : List (String × Json)}
    (h : m ∈ ms.foldl (fun acc (k, v) => insertMember k v acc) acc) : m ∈ acc ∨ m ∈ ms := by
  induction ms generalizing acc with
  | nil => exact .inl h
  | cons n ms ih =>
    rcases ih h with hacc | hms
    · rcases mem_insertMember hacc with rfl | hacc
      · exact .inr List.mem_cons_self
      · exact .inl hacc
    · exact .inr (.tail _ hms)

theorem mem_of_mem_arrange {m : String × Json} (h : m ∈ arrange ms) : m ∈ ms := by
  rcases mem_of_mem_foldl h with hnil | hms
  · cases hnil
  · exact hms

theorem inOrder_foldl (acc ms : List (String × Json)) (h : InOrder acc) :
    InOrder (ms.foldl (fun acc (k, v) => insertMember k v acc) acc) := by
  induction ms generalizing acc with
  | nil => exact h
  | cons m ms ih => exact ih _ h.insertMember

theorem inOrder_arrange (ms : List (String × Json)) : InOrder (arrange ms) :=
  inOrder_foldl [] ms List.Pairwise.nil

theorem foldl_perm (acc ms : List (String × Json)) (h : ((acc ++ ms).map (·.1)).Nodup) :
    (ms.foldl (fun acc (k, v) => insertMember k v acc) acc).Perm (acc ++ ms) := by
  induction ms generalizing acc with
  | nil => simp
  | cons m ms ih =>
    obtain ⟨k, v⟩ := m
    have hmid : (acc ++ (k, v) :: ms).Perm ((k, v) :: acc ++ ms) := List.perm_middle
    have hnew : k ∉ acc.map (·.1) := by
      have hnodup := (hmid.map (·.1)).nodup_iff.mp h
      rw [List.map_append, List.map_cons, List.cons_append, List.nodup_cons] at hnodup
      exact fun hk => hnodup.1 (List.mem_append_left _ hk)
    have hins := insertMember_perm (v := v) hnew
    have hacc := (hins.append_right ms).trans hmid.symm
    exact (ih _ ((hacc.map (·.1)).nodup_iff.mpr h)).trans hacc

/-- Members with distinct names are put in order, and none is lost. -/
theorem arrange_perm (h : (ms.map (·.1)).Nodup) : (arrange ms).Perm ms :=
  foldl_perm [] ms h

theorem InOrder.nodup (h : InOrder ms) : (ms.map (·.1)).Nodup := by
  rw [List.nodup_iff_pairwise_ne, List.pairwise_map]
  refine List.Pairwise.imp (fun {a b} hlt he => ?_) h
  exact String.lt_irrefl b.1 (he ▸ hlt)

theorem InOrder.eq_of_perm (hm : InOrder ms) (hn : InOrder ns) (h : ms.Perm ns) : ms = ns :=
  h.eq_of_pairwise (fun _ _ _ _ hab hba => absurd hba (String.lt_asymm hab)) hm hn

theorem InOrder.arrange_eq (h : InOrder ms) : arrange ms = ms :=
  (inOrder_arrange ms).eq_of_perm h (arrange_perm h.nodup)

theorem lookup_eq_some_iff_mem {α : Type} {ms : List (String × α)} {v : α}
    (h : (ms.map (·.1)).Nodup) : ms.lookup name = some v ↔ (name, v) ∈ ms := by
  induction ms with
  | nil => simp
  | cons m ms ih =>
    obtain ⟨k, w⟩ := m
    rw [List.map_cons, List.nodup_cons] at h
    rw [List.lookup_cons, List.mem_cons, Prod.mk.injEq]
    cases hk : name == k with
    | true =>
      have heq : name = k := eq_of_beq hk
      have hnot : (name, v) ∉ ms := fun hm => h.1 (heq ▸ List.mem_map_of_mem (f := (·.1)) hm)
      constructor
      · intro hw
        exact .inl ⟨heq, (Option.some.inj hw).symm⟩
      · rintro (⟨-, rfl⟩ | hm)
        · rfl
        · exact absurd hm hnot
    | false =>
      have hne : name ≠ k := fun he => by simp [he] at hk
      simp [hne, ih h.2]

theorem lookup_congr {α : Type} {ms ns : List (String × α)} (h : (ms.map (·.1)).Nodup)
    (hp : ms.Perm ns) (name : String) : ms.lookup name = ns.lookup name := by
  have hn : (ns.map (·.1)).Nodup := (hp.map (·.1)).nodup_iff.mp h
  refine Option.ext fun v => ?_
  rw [lookup_eq_some_iff_mem h, lookup_eq_some_iff_mem hn, hp.mem_iff]

theorem lookup_cons_eq (name key : String) (v : Json) (ms : List (String × Json)) :
    ((key, v) :: ms).lookup name = if name = key then some v else ms.lookup name := by
  rw [List.lookup_cons]
  by_cases h : name = key
  · simp [h]
  · rw [beq_false_of_ne h, if_neg h]

theorem lookup_isSome_iff : (ms.lookup name).isSome ↔ name ∈ ms.map (·.1) := by
  induction ms with
  | nil => simp
  | cons m ms ih =>
    rw [← Prod.mk.eta (p := m), lookup_cons_eq, List.map_cons, List.mem_cons]
    by_cases h : name = m.1
    · simp [h]
    · simp [h, ih]

theorem lookup_eq_none_of_not_mem (h : name ∉ ms.map (·.1)) : ms.lookup name = none :=
  Option.not_isSome_iff_eq_none.mp fun hsome => h (lookup_isSome_iff.mp hsome)

theorem lookup_insertMember (name key : String) (v : Json) (ms : List (String × Json)) :
    (insertMember key v ms).lookup name = if name = key then some v else ms.lookup name := by
  induction ms with
  | nil => exact lookup_cons_eq ..
  | cons m ms ih =>
    obtain ⟨k, w⟩ := m
    rw [insertMember]
    by_cases hlt : key < k
    · rw [if_pos hlt, lookup_cons_eq]
    rw [if_neg hlt]
    by_cases heq : key = k
    · rw [if_pos heq, lookup_cons_eq, lookup_cons_eq, ← heq]
      split <;> rfl
    · rw [if_neg heq, lookup_cons_eq, ih, lookup_cons_eq]
      by_cases hk : name = k
      · have hne : ¬ name = key := fun he => heq (he.symm.trans hk)
        rw [if_pos hk, if_neg hne, if_pos hk]
      · rw [if_neg hk, if_neg hk]

/-- The first member is found under its name unless the name comes again. -/
theorem member?_ofMembers (h : name ∉ ms.map (·.1)) :
    (ofMembers ((name, v) :: ms)).member? name = some v := by
  have hfold : ∀ acc : List (String × Json),
      (ms.foldl (fun acc (k, v) => insertMember k v acc) acc).lookup name = acc.lookup name := by
    induction ms with
    | nil => exact fun acc => rfl
    | cons m ms ih =>
      obtain ⟨k, w⟩ := m
      rw [List.map_cons, List.mem_cons, not_or] at h
      intro acc
      rw [List.foldl_cons, ih h.2, lookup_insertMember, if_neg h.1]
  refine (hfold _).trans ?_
  simp [insertMember]

end
end RpcPeer.Json
