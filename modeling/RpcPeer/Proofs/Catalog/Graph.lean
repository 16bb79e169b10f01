import Mathlib.Data.List.Lattice
import Mathlib.Data.List.Nodup
import Mathlib.Data.List.Pairwise
import Mathlib.Logic.Relation
import RpcPeer.Catalog.Build

/-! The groups of a draft as a graph, and the places of their methods. -/
namespace RpcPeer

/-- Under distinct names everything is found under its own. -/
theorem find?_eq_some_of_nodup {α : Type} {name : α → String} {l : List α} {x : α}
    (h : (l.map name).Nodup) (hx : x ∈ l) : l.find? (name · == name x) = some x := by
  induction l with
  | nil => exact absurd hx List.not_mem_nil
  | cons y ys ih =>
    rw [List.map_cons, List.nodup_cons] at h
    rw [List.find?_cons]
    rcases List.mem_cons.mp hx with rfl | hx
    · simp
    · have hne : name y ≠ name x := fun he => h.1 (he ▸ List.mem_map_of_mem hx)
      simp only [beq_eq_false_iff_ne.mpr hne]
      exact ih h.2 hx

namespace CatalogDraft
open Relation

def roots (d : CatalogDraft) : List String := d.localRoots ++ d.remoteRoots

/-- The group `a` is defined and names `b` among its delegates. -/
def Delegates (d : CatalogDraft) (a b : String) : Prop :=
  ∃ g, d.find? a = some g ∧ b ∈ g.delegates

/-- A root, or a delegate of a reachable group. Such a name need not be defined. -/
def Reachable (d : CatalogDraft) (name : String) : Prop :=
  ∃ root ∈ d.roots, ReflTransGen d.Delegates root name

/-- The methods of the group that has this name, under their full names. -/
def entriesOf (d : CatalogDraft) (name : String) : List MethodEntry :=
  (d.find? name).elim [] Group.entries

def fullNames (d : CatalogDraft) (name : String) : List String := (d.entriesOf name).map (·.name)

/-- The reachable group `owner` has this method at this position. -/
def Registers (d : CatalogDraft) (owner : String) (position : Nat) (m : MethodEntry) : Prop :=
  d.Reachable owner ∧ (d.entriesOf owner)[position]? = some m

/-- What a draft must meet for a catalog to be built from it. -/
structure Sound (d : CatalogDraft) : Prop where
  /-- No group is added twice. -/
  once : (d.groups.map (·.name)).Nodup
  defined : ∀ name, d.Reachable name → ∃ g, d.find? name = some g
  acyclic : ∀ name, d.Reachable name → ¬ TransGen d.Delegates name name
  /-- Two places never give one full name. -/
  distinct : ∀ a i m b j n, d.Registers a i m → d.Registers b j n → m.name = n.name →
    a = b ∧ i = j

/-- A root, or a delegate of a defined group that can be reached. -/
def CalledFor (d : CatalogDraft) (name : String) : Prop :=
  name ∈ d.roots ∨ ∃ owner g, d.Reachable owner ∧ d.find? owner = some g ∧ name ∈ g.delegates

/-- A way along delegations that ends where it starts and does not meet itself before. -/
structure Cycle (d : CatalogDraft) (names : List String) : Prop where
  length : 2 ≤ names.length
  closed : names.head? = names.getLast?
  simple : names.dropLast.Nodup
  delegates : names.IsChain d.Delegates
  reachable : ∀ n ∈ names, d.Reachable n

/-- The reachable group `owner` has a method at this position whose full name is `method`. -/
def Places (d : CatalogDraft) (method owner : String) (position : Nat) : Prop :=
  d.Reachable owner ∧ ∃ g m, d.find? owner = some g ∧ g.methods[position]? = some m ∧
    g.segment ++ m.name = method

end CatalogDraft

/-- What an error says is the case. -/
def CatalogError.TrueOf (d : CatalogDraft) : CatalogError → Prop
  | .duplicateGroup name => 2 ≤ (d.groups.map (·.name)).count name
  | .unknownGroup name => d.CalledFor name ∧ ∀ g ∈ d.groups, g.name ≠ name
  | .delegationCycle names => d.Cycle names
  | .duplicateMethod method first second =>
    ∃ i j, d.Places method first i ∧ d.Places method second j ∧ (first, i) ≠ (second, j)

namespace CatalogDraft
open Relation

section
variable {d : CatalogDraft} {a b name method owner : String} {g : Group} {i : Nat}

theorem Reachable.of_root (h : name ∈ d.roots) : d.Reachable name := ⟨name, h, .refl⟩

theorem Reachable.step (h : d.Reachable a) (hab : d.Delegates a b) : d.Reachable b := by
  obtain ⟨root, hroot, hwalk⟩ := h
  exact ⟨root, hroot, hwalk.tail hab⟩

theorem entriesOf_of_find? (h : d.find? name = some g) : d.entriesOf name = g.entries := by
  rw [entriesOf, h]
  rfl

theorem name_of_find? (h : d.find? name = some g) : g.name = name := by
  simpa using List.find?_some h

theorem mem_groups_of_find? (h : d.find? name = some g) : g ∈ d.groups :=
  List.mem_of_find?_eq_some h

theorem calledFor_iff : d.CalledFor name ↔ d.Reachable name := by
  constructor
  · rintro (hroot | ⟨owner, g, howner, hg, hname⟩)
    · exact .of_root hroot
    · exact howner.step ⟨g, hg, hname⟩
  · rintro ⟨root, hroot, hwalk⟩
    rcases ReflTransGen.cases_tail hwalk with rfl | ⟨owner, hwalk, g, hg, hname⟩
    · exact .inl hroot
    · exact .inr ⟨owner, g, ⟨root, hroot, hwalk⟩, hg, hname⟩

theorem find?_eq_none_iff : d.find? name = none ↔ ∀ g ∈ d.groups, g.name ≠ name := by
  simp only [find?, List.find?_eq_none, beq_iff_eq, ne_eq]

theorem places_iff : d.Places method owner i ↔ ∃ m, d.Registers owner i m ∧ m.name = method := by
  constructor
  · rintro ⟨hreach, g, m, hg, hm, hname⟩
    refine ⟨m.withSegment g.segment, ⟨hreach, ?_⟩, hname⟩
    rw [entriesOf_of_find? hg, Group.entries, List.getElem?_map, hm]
    rfl
  · rintro ⟨m, ⟨hreach, hm⟩, hname⟩
    cases hg : d.find? owner with
    | none => simp [entriesOf, hg] at hm
    | some g =>
      rw [entriesOf_of_find? hg, Group.entries, List.getElem?_map] at hm
      obtain ⟨n, hn, rfl⟩ := Option.map_eq_some_iff.mp hm
      exact ⟨hreach, g, n, hg, hn, hname⟩

theorem find?_of_mem (h : (d.groups.map (·.name)).Nodup) (hg : g ∈ d.groups) :
    d.find? g.name = some g :=
  find?_eq_some_of_nodup h hg

theorem mem_fullNames {x : String} :
    x ∈ d.fullNames name ↔ ∃ (i : Nat) (m : MethodEntry),
      (d.entriesOf name)[i]? = some m ∧ m.name = x := by
  rw [fullNames, List.mem_map]
  constructor
  · rintro ⟨m, hmem, rfl⟩
    obtain ⟨i, hm⟩ := List.mem_iff_getElem?.mp hmem
    exact ⟨i, m, hm, rfl⟩
  · rintro ⟨i, m, hm, rfl⟩
    exact ⟨m, List.mem_of_getElem? hm, rfl⟩

/-- The places of some groups give distinct full names exactly if the full names of all of them,
one group after the other, are distinct. -/
theorem nodup_fullNames_iff {names : List String} (h : names.Nodup) :
    (names.flatMap d.fullNames).Nodup ↔
      ∀ a ∈ names, ∀ b ∈ names, ∀ (i j : Nat) (m n : MethodEntry),
        (d.entriesOf a)[i]? = some m → (d.entriesOf b)[j]? = some n → m.name = n.name →
          a = b ∧ i = j := by
  rw [List.nodup_flatMap]
  constructor
  · rintro ⟨hown, hapart⟩ a ha b hb i j m n hm hn hname
    by_cases hab : a = b
    · subst hab
      have hmi : (d.fullNames a)[i]? = some m.name := by rw [fullNames, List.getElem?_map, hm]; rfl
      have hnj : (d.fullNames a)[j]? = some n.name := by rw [fullNames, List.getElem?_map, hn]; rfl
      have hlt : i < (d.fullNames a).length := (List.getElem?_eq_some_iff.mp hmi).1
      exact ⟨rfl, (List.getElem?_inj hlt (hown a ha)).mp (hmi.trans (hname ▸ hnj.symm))⟩
    · have : Std.Symm (Function.onFun List.Disjoint d.fullNames) :=
        ⟨fun _ _ hxy => List.Disjoint.symm hxy⟩
      have hdisjoint := hapart.forall ha hb hab
      exact absurd (mem_fullNames.mpr ⟨j, n, hn, hname.symm⟩)
        (hdisjoint (mem_fullNames.mpr ⟨i, m, hm, rfl⟩))
  · intro hdistinct
    constructor
    · intro a ha
      rw [fullNames, List.nodup_iff_pairwise_ne, List.pairwise_map, List.pairwise_iff_getElem]
      intro i j hi hj hlt hname
      have hij := (hdistinct a ha a ha i j _ _ (List.getElem?_eq_getElem hi)
        (List.getElem?_eq_getElem hj) hname).2
      omega
    · refine List.Pairwise.imp_of_mem (fun {a b} ha hb hab => ?_) h
      intro x hxa hxb
      obtain ⟨i, m, hm, rfl⟩ := mem_fullNames.mp hxa
      obtain ⟨j, n, hn, hname⟩ := mem_fullNames.mp hxb
      exact hab (hdistinct a ha b hb i j m n hm hn hname.symm).1

end
end CatalogDraft
end RpcPeer
