import Mathlib.Data.List.Chain
import RpcPeer.Proofs.Catalog.Graph
import RpcPeer.Proofs.Steps

/-! The walk that collects the methods of a draft, and where it stops. -/
namespace RpcPeer
open Steps

namespace Collected

/-- Takes methods of a group in, whatever their names are. -/
def add (c : Collected) (group : String) (ms : List MethodEntry) : Collected :=
  { c with methods := c.methods ++ ms.map (·, group) }

def names (c : Collected) : List String := c.methods.map (·.1.name)

section
variable {c c' : Collected} {group : String} {m : MethodEntry} {ms : List MethodEntry}
  {e : CatalogError}

theorem add_nil (c : Collected) (group : String) : c.add group [] = c := by
  simp [add]

theorem add_add (c : Collected) (group : String) (ms ns : List MethodEntry) :
    (c.add group ms).add group ns = c.add group (ms ++ ns) := by
  simp [add]

theorem owner?_eq_none (h : c.owner? m.name = none) : m.name ∉ c.names := by
  intro hm
  obtain ⟨x, hx, hname⟩ := List.mem_map.mp hm
  have hnone := List.find?_eq_none.mp (Option.map_eq_none_iff.mp h) x hx
  exact hnone (beq_iff_eq.mpr hname)

theorem mem_of_owner?_eq_some {first : String} (h : c.owner? m.name = some first) :
    ∃ x ∈ c.methods, x.1.name = m.name ∧ x.2 = first := by
  obtain ⟨x, hx, hfirst⟩ := Option.map_eq_some_iff.mp h
  have hname := List.find?_some hx
  exact ⟨x, List.mem_of_find?_eq_some hx, by simpa using hname, hfirst⟩

theorem register_eq_ok (h : register group c m = .ok c') :
    c' = c.add group [m] ∧ m.name ∉ c.names := by
  unfold register at h
  split at h
  next => cases h
  next hown =>
    cases h
    exact ⟨rfl, owner?_eq_none hown⟩

theorem register_eq_error (h : register group c m = .error e) :
    ∃ x ∈ c.methods, x.1.name = m.name ∧ e = .duplicateMethod m.name x.2 group := by
  unfold register at h
  split at h
  next first hown =>
    cases h
    obtain ⟨x, hx, hname, rfl⟩ := mem_of_owner?_eq_some hown
    exact ⟨x, hx, hname, rfl⟩
  next => cases h

theorem nodup_names_add (h : c.names.Nodup) (hm : m.name ∉ c.names) :
    (c.add group [m]).names.Nodup := by
  have hnames : (c.add group [m]).names = c.names ++ [m.name] := by simp [names, add]
  rw [hnames]
  exact List.Nodup.append h (List.nodup_singleton _) (List.disjoint_singleton.mpr hm)

theorem foldlM_register_eq_ok (h : ms.foldlM (register group) c = .ok c') :
    c' = c.add group ms ∧ (c.names.Nodup → c'.names.Nodup) := by
  induction ms generalizing c with
  | nil =>
    cases h
    exact ⟨(add_nil _ group).symm, id⟩
  | cons m ms ih =>
    rw [List.foldlM_cons] at h
    obtain ⟨c₁, hm, hms⟩ := bind_eq_ok.mp h
    obtain ⟨rfl, hnew⟩ := register_eq_ok hm
    obtain ⟨rfl, hnodup⟩ := ih hms
    exact ⟨add_add c group [m] ms, fun hc => hnodup (nodup_names_add hc hnew)⟩

/-- The first method whose name is taken stops the group: by one that was there before, or by an
earlier one of the group. -/
theorem foldlM_register_eq_error (h : ms.foldlM (register group) c = .error e) :
    ∃ before m after, ms = before ++ m :: after ∧
      ∃ x ∈ (c.add group before).methods,
        x.1.name = m.name ∧ e = .duplicateMethod m.name x.2 group := by
  induction ms generalizing c with
  | nil => cases h
  | cons m ms ih =>
    rw [List.foldlM_cons] at h
    cases hm : register group c m with
    | error e' =>
      rw [hm] at h
      cases h
      exact ⟨[], m, ms, rfl, (add_nil c group).symm ▸ register_eq_error hm⟩
    | ok c₁ =>
      rw [hm] at h
      obtain ⟨rfl, -⟩ := register_eq_ok hm
      obtain ⟨before, n, after, rfl, hx⟩ := ih h
      rw [add_add] at hx
      exact ⟨m :: before, n, after, rfl, hx⟩

end
end Collected

namespace CatalogDraft

/-- Groups that a walk is done with, the last one first: each is defined, and all its delegates
were done before it. -/
inductive Settled (d : CatalogDraft) : List String → Prop
  | nil : Settled d []
  | cons {name : String} {g : Group} {done : List String} (fresh : name ∉ done)
      (found : d.find? name = some g) (delegates : ∀ x ∈ g.delegates, x ∈ done)
      (rest : Settled d done) : Settled d (name :: done)

/-- The methods of a group, each with the name of the group. -/
def owned (d : CatalogDraft) (name : String) : List (MethodEntry × String) :=
  (d.entriesOf name).map (·, name)

/-- What holds of a walk that stands at the end of `path`: the methods that were collected are those
of the groups that are done and of the groups on the path. -/
structure Progress (d : CatalogDraft) (path : List String) (c : Collected) : Prop where
  settled : d.Settled c.done
  reachable : ∀ name ∈ c.done, d.Reachable name
  unfinished : ∀ name ∈ path, name ∉ c.done
  methods : c.methods.Perm ((c.done ++ path).flatMap d.owned)
  distinct : c.names.Nodup

/-- A way from a root to `name` that does not meet itself before it comes there. -/
structure Trail (d : CatalogDraft) (path : List String) (name : String) : Prop where
  reachable : ∀ n ∈ path ++ [name], d.Reachable n
  chain : (path ++ [name]).IsChain d.Delegates
  nodup : path.Nodup

/-- How a walk along `path` to some names may end. -/
def Outcome (d : CatalogDraft) (path : List String) (c : Collected) (names : List String) :
    Except CatalogError Collected → Prop
  | .ok c' => d.Progress path c' ∧ c.done ⊆ c'.done ∧ ∀ n ∈ names, n ∈ c'.done
  | .error e => e.TrueOf d

section
variable {d : CatalogDraft} {path names done : List String} {name x : String} {g : Group}
  {c c' : Collected}

theorem Settled.defined (h : d.Settled done) (hx : x ∈ done) : ∃ g, d.find? x = some g := by
  induction h with
  | nil => exact absurd hx List.not_mem_nil
  | cons _ found _ _ ih =>
    rcases List.mem_cons.mp hx with rfl | hx
    · exact ⟨_, found⟩
    · exact ih hx

theorem Settled.nodup (h : d.Settled done) : done.Nodup := by
  induction h with
  | nil => exact List.nodup_nil
  | cons fresh _ _ _ ih => exact List.nodup_cons.mpr ⟨fresh, ih⟩

theorem Settled.closed (h : d.Settled done) {y : String} (hx : x ∈ done)
    (hxy : d.Delegates x y) : y ∈ done := by
  obtain ⟨g, hg, hy⟩ := hxy
  induction h with
  | nil => exact absurd hx List.not_mem_nil
  | cons _ found delegates _ ih =>
    rcases List.mem_cons.mp hx with rfl | hx
    · cases found.symm.trans hg
      exact List.mem_cons_of_mem _ (delegates y hy)
    · exact List.mem_cons_of_mem _ (ih hx)

theorem Settled.closed_walk (h : d.Settled done) {y : String} (hx : x ∈ done)
    (hxy : Relation.ReflTransGen d.Delegates x y) : y ∈ done := by
  induction hxy with
  | refl => exact hx
  | tail _ hyz ih => exact h.closed ih hyz

theorem Settled.acyclic (h : d.Settled done) (hx : x ∈ done) :
    ¬ Relation.TransGen d.Delegates x x := by
  induction h with
  | nil => exact absurd hx List.not_mem_nil
  | cons fresh found delegates rest ih =>
    rcases List.mem_cons.mp hx with rfl | hx
    · -- the first step leads to what was done before, and no way leads out of it
      intro hcycle
      obtain ⟨y, ⟨g, hg, hy⟩, hwalk⟩ := Relation.TransGen.head'_iff.mp hcycle
      cases found.symm.trans hg
      exact fresh (rest.closed_walk (delegates y hy) hwalk)
    · exact ih hx

theorem Progress.enter (h : d.Progress path c) (hdone : name ∉ c.done)
    (hg : d.find? name = some g) (hnodup : (c.add name g.entries).names.Nodup) :
    d.Progress (path ++ [name]) (c.add name g.entries) where
  settled := h.settled
  reachable := h.reachable
  unfinished n hn := by
    rcases List.mem_append.mp hn with hn | hn
    · exact h.unfinished n hn
    · exact List.mem_singleton.mp hn ▸ hdone
  methods := by
    have howned : d.owned name = g.entries.map (·, name) := by
      rw [owned, entriesOf_of_find? hg]
    change (c.methods ++ g.entries.map (·, name)).Perm
      ((c.done ++ (path ++ [name])).flatMap d.owned)
    rw [← List.append_assoc, List.flatMap_append, List.flatMap_singleton, howned]
    exact h.methods.append_right _
  distinct := hnodup

theorem Progress.leave (h : d.Progress (path ++ [name]) c) (hpath : name ∉ path)
    (hname : d.Reachable name) (hg : d.find? name = some g)
    (hdelegates : ∀ x ∈ g.delegates, x ∈ c.done) :
    d.Progress path { c with done := name :: c.done } where
  settled := .cons (h.unfinished name (by simp)) hg hdelegates h.settled
  reachable n hn := by
    rcases List.mem_cons.mp hn with rfl | hn
    · exact hname
    · exact h.reachable n hn
  unfinished n hn := by
    rw [List.mem_cons, not_or]
    exact ⟨fun he => hpath (he ▸ hn), h.unfinished n (List.mem_append_left _ hn)⟩
  methods := by
    refine h.methods.trans (List.Perm.flatMap_right _ ?_)
    rw [← List.append_assoc]
    exact List.perm_append_singleton name (c.done ++ path)
  distinct := h.distinct

theorem Trail.reach (h : d.Trail path name) : d.Reachable name := h.reachable name (by simp)

theorem Trail.step (h : d.Trail path name) (hpath : name ∉ path) (hg : d.find? name = some g)
    (hx : x ∈ g.delegates) : d.Trail (path ++ [name]) x where
  reachable n hn := by
    rcases List.mem_append.mp hn with hn | hn
    · exact h.reachable n hn
    · rw [List.mem_singleton.mp hn]
      exact h.reach.step ⟨g, hg, hx⟩
  chain := by
    refine h.chain.append (List.isChain_singleton x) ?_
    intro a ha b hb
    simp only [List.getLast?_append, List.getLast?_singleton, Option.some_or, List.head?_cons,
      Option.mem_some_iff] at ha hb
    exact ha ▸ hb ▸ ⟨g, hg, hx⟩
  nodup := List.Nodup.append h.nodup (List.nodup_singleton _) (List.disjoint_singleton.mpr hpath)

/-- A walk that meets its own path has gone round a cycle. -/
theorem Trail.cycle (h : d.Trail path name) (hpath : name ∈ path) :
    d.Cycle (path.dropWhile (· != name) ++ [name]) := by
  obtain ⟨before, between, rfl, hbefore⟩ := List.eq_append_cons_of_mem hpath
  have hall : ∀ n ∈ before, (n != name) = true := by
    intro n hn
    exact bne_iff_ne.mpr fun he => hbefore (he ▸ hn)
  have hdrop : (before ++ name :: between).dropWhile (· != name) = name :: between := by
    rw [List.dropWhile_append_of_pos hall, List.dropWhile_cons_of_neg (by simp)]
  have hsplit : before ++ name :: between ++ [name] = before ++ (name :: (between ++ [name])) := by
    simp
  have hchain := h.chain
  have hreach := h.reachable
  rw [hsplit] at hchain hreach
  rw [hdrop]
  refine ⟨by simp, ?_, ?_, hchain.right_of_append,
    fun n hn => hreach n (List.mem_append_right _ hn)⟩
  · rw [List.getLast?_concat]
    rfl
  · rw [List.dropLast_concat]
    exact (List.nodup_append.mp h.nodup).2.1

/-- A name that is taken is taken at another place. -/
theorem Progress.duplicate (h : d.Progress path c) (ht : d.Trail path name) (hpath : name ∉ path)
    (hdone : name ∉ c.done) (hg : d.find? name = some g) {e : CatalogError}
    (he : g.entries.foldlM (Collected.register name) c = .error e) : e.TrueOf d := by
  obtain ⟨before, m, after, hentries, ⟨n, first⟩, hx, hname, rfl⟩ :=
    Collected.foldlM_register_eq_error he
  have hm : d.Places m.name name before.length :=
    places_iff.mpr ⟨m, ⟨ht.reach, by rw [entriesOf_of_find? hg, hentries]; simp⟩, rfl⟩
  rcases List.mem_append.mp hx with hx | hx
  · -- by a group that was entered before this one
    obtain ⟨owner, howner, hx⟩ := List.mem_flatMap.mp (h.methods.mem_iff.mp hx)
    obtain ⟨n', hn', he⟩ := List.mem_map.mp hx
    cases he
    obtain ⟨i, hi⟩ := List.mem_iff_getElem?.mp hn'
    have hreach : d.Reachable first := by
      rcases List.mem_append.mp howner with hown | hown
      · exact h.reachable first hown
      · exact ht.reachable first (List.mem_append_left _ hown)
    have hne : first ≠ name := by
      rintro rfl
      exact (List.mem_append.mp howner).elim hdone hpath
    exact ⟨i, before.length, places_iff.mpr ⟨n, ⟨hreach, hi⟩, hname⟩, hm,
      fun h => hne (Prod.mk.inj h).1⟩
  · -- by an earlier method of this group
    obtain ⟨n', hn', he⟩ := List.mem_map.mp hx
    cases he
    obtain ⟨i, hi⟩ := List.mem_iff_getElem?.mp hn'
    have hlt : i < before.length := (List.getElem?_eq_some_iff.mp hi).1
    have hn : d.Registers name i n :=
      ⟨ht.reach, by rw [entriesOf_of_find? hg, hentries, List.getElem?_append_left hlt, hi]⟩
    exact ⟨i, before.length, places_iff.mpr ⟨n, hn, hname⟩, hm,
      fun h => Nat.ne_of_lt hlt (Prod.mk.inj h).2⟩

theorem visitAll_outcome (hvisit : ∀ n ∈ names, ∀ c, d.Progress path c →
      d.Outcome path c [n] (d.visit path n c)) (h : d.Progress path c) :
    d.Outcome path c names (d.visitAll path names c) := by
  induction names generalizing c with
  | nil =>
    rw [visitAll]
    exact ⟨h, List.Subset.refl _, by simp⟩
  | cons n ns ih =>
    have hn := hvisit n List.mem_cons_self c h
    rw [visitAll]
    cases hc : d.visit path n c with
    | error e =>
      rw [hc] at hn
      exact hn
    | ok c₁ =>
      rw [hc] at hn
      obtain ⟨hp₁, hsub₁, hmem₁⟩ := hn
      have hns := ih (fun x hx => hvisit x (List.mem_cons_of_mem _ hx)) hp₁
      rw [ok_bind]
      cases hc₂ : d.visitAll path ns c₁ with
      | error e =>
        rw [hc₂] at hns
        exact hns
      | ok c₂ =>
        rw [hc₂] at hns
        obtain ⟨hp₂, hsub₂, hmem₂⟩ := hns
        refine ⟨hp₂, List.Subset.trans hsub₁ hsub₂, fun x hx => ?_⟩
        rcases List.mem_cons.mp hx with rfl | hx
        · exact hsub₂ (hmem₁ x List.mem_cons_self)
        · exact hmem₂ x hx

theorem visit_of_find? (hpath : name ∉ path) (hdone : name ∉ c.done)
    (hg : d.find? name = some g) :
    d.visit path name c = (do
      let c ← g.entries.foldlM (Collected.register name) c
      let c ← d.visitAll (path ++ [name]) g.delegates c
      return { c with done := name :: c.done }) := by
  rw [visit, dif_neg hpath, if_neg hdone]
  split
  next hnone => cases hnone.symm.trans hg
  next g' hg' =>
    cases hg'.symm.trans hg
    rfl

theorem visit_of_find?_eq_none (hpath : name ∉ path) (hdone : name ∉ c.done)
    (hg : d.find? name = none) : d.visit path name c = .error (.unknownGroup name) := by
  rw [visit, dif_neg hpath, if_neg hdone]
  split
  next => rfl
  next g hg' => cases hg'.symm.trans hg

/-- A walk keeps its invariant and gets done with what it was sent to, or it stops for a reason. -/
theorem visit_outcome (ht : d.Trail path name) (h : d.Progress path c) :
    d.Outcome path c [name] (d.visit path name c) := by
  -- on the number of groups that are not on the path: each step puts one more there
  induction hk : d.unentered path using Nat.strongRecOn generalizing path name c with
  | ind k ih =>
    by_cases hpath : name ∈ path
    · rw [visit, dif_pos hpath]
      exact ht.cycle hpath
    by_cases hdone : name ∈ c.done
    · rw [visit, dif_neg hpath, if_pos hdone]
      exact ⟨h, List.Subset.refl _, by simpa using hdone⟩
    cases hg : d.find? name with
    | none =>
      rw [visit_of_find?_eq_none hpath hdone hg]
      exact ⟨calledFor_iff.mpr ht.reach, find?_eq_none_iff.mp hg⟩
    | some g =>
      rw [visit_of_find? hpath hdone hg]
      cases hc : g.entries.foldlM (Collected.register name) c with
      | error e => exact h.duplicate ht hpath hdone hg hc
      | ok c₁ =>
        obtain ⟨rfl, hnodup⟩ := Collected.foldlM_register_eq_ok hc
        have hlt : d.unentered (path ++ [name]) < k := hk ▸ unentered_lt hpath hg
        have hvisit : ∀ x ∈ g.delegates, ∀ c', d.Progress (path ++ [name]) c' →
            d.Outcome (path ++ [name]) c' [x] (d.visit (path ++ [name]) x c') :=
          fun x hx c' hc' => ih _ hlt (ht.step hpath hg hx) hc' rfl
        have hall := visitAll_outcome hvisit (h.enter hdone hg (hnodup h.distinct))
        rw [ok_bind]
        cases hc₂ : d.visitAll (path ++ [name]) g.delegates (c.add name g.entries) with
        | error e =>
          rw [hc₂] at hall
          exact hall
        | ok c₂ =>
          rw [hc₂] at hall
          obtain ⟨hp, hsub, hmem⟩ := hall
          exact ⟨hp.leave hpath ht.reach hg hmem, fun x hx => List.mem_cons_of_mem _ (hsub hx),
            by simp⟩

end
end CatalogDraft
end RpcPeer
