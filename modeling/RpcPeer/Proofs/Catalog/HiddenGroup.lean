import Mathlib
import RpcPeer.Proofs.Catalog.Building
import RpcPeer.Session.Launch

/-! The empty group that a connection adds where its own side serves nothing. -/
namespace RpcPeer
open Steps

/-- The same group, which does not delegate to `x`. -/
def Group.without (x : String) (g : Group) : Group :=
  { g with delegates := g.delegates.filter (· != x) }

/-- With more groups that count as done from the start. -/
def Collected.after (extra : List String) (c : Collected) : Collected :=
  { c with done := c.done ++ extra }

namespace Collected
variable {group : String} {ms : List MethodEntry}

theorem after_nil (c : Collected) : c.after [] = c := by
  simp [after]

theorem register_after (extra : List String) (group : String) (c : Collected) (m : MethodEntry) :
    register group (c.after extra) m = (register group c m).map (after extra) := by
  have hown : (c.after extra).owner? m.name = c.owner? m.name := rfl
  rw [register, register, hown]
  cases c.owner? m.name with
  | none => rfl
  | some first => rfl

theorem foldlM_register_after (extra : List String) (c : Collected) :
    ms.foldlM (register group) (c.after extra) =
      (ms.foldlM (register group) c).map (after extra) := by
  induction ms generalizing c with
  | nil => rfl
  | cons m ms ih =>
    rw [List.foldlM_cons, List.foldlM_cons, register_after]
    cases register group c m with
    | error e => rfl
    | ok c' => exact ih c'

end Collected

namespace CatalogDraft

/-- The same draft where nothing names `x`: no root and no delegate. -/
def without (x : String) (d : CatalogDraft) : CatalogDraft where
  groups := d.groups.map (Group.without x)
  localRoots := d.localRoots.filter (· != x)
  remoteRoots := d.remoteRoots.filter (· != x)

/-- What a build gives besides its log entry. -/
def catalog (d : CatalogDraft) : Except CatalogError Catalog := d.build.map (·.1)

section
variable {d d' : CatalogDraft} {x name : String} {path names extra : List String}

theorem catalog_eq (d : CatalogDraft) :
    d.catalog = d.collect.map fun c => ⟨c.methods.map (·.1)⟩ := by
  rw [catalog, build]
  cases d.collect with
  | error e => rfl
  | ok c => rfl

theorem names_without (x : String) (d : CatalogDraft) :
    (d.without x).groups.map (·.name) = d.groups.map (·.name) := by
  rw [without, List.map_map]
  rfl

theorem roots_without (x : String) (d : CatalogDraft) :
    (d.without x).roots = d.roots.filter (· != x) :=
  (List.filter_append d.localRoots d.remoteRoots).symm

theorem find?_without (x name : String) (d : CatalogDraft) :
    (d.without x).find? name = (d.find? name).map (Group.without x) := by
  rw [find?, without, List.find?_map]
  rfl

/-- The drafts `d` and `d'` find the same under all names but `x`. In `d` this name is either not
defined or it counts as done from the start, as no other name does. -/
structure Extends (d d' : CatalogDraft) (x : String) (extra : List String) : Prop where
  find : ∀ name, name ≠ x → d.find? name = d'.find? name
  only : ∀ name ∈ extra, name = x
  hidden : x ∈ extra ∨ d.find? x = none

/-- A walk stops at `x`, or goes as it does where nothing names `x`. -/
def Follows (x : String) (extra : List String) (walked ideal : Except CatalogError Collected) :
    Prop :=
  walked = .error (.unknownGroup x) ∨ walked = ideal.map (Collected.after extra)

theorem Extends.visit_self (h : d.Extends d' x extra) (hpath : x ∉ path) (c : Collected) :
    Follows x extra (d.visit path x (c.after extra)) (.ok c) := by
  by_cases hdone : x ∈ (c.after extra).done
  · rw [visit, dif_neg hpath, if_pos hdone]
    exact .inr rfl
  · have hnone : d.find? x = none :=
      h.hidden.resolve_left fun hx => hdone (List.mem_append_right _ hx)
    rw [visit_of_find?_eq_none hpath hdone hnone]
    exact .inl rfl

theorem Follows.bind {walked ideal : Except CatalogError Collected}
    {f g : Collected → Except CatalogError Collected} (h : Follows x extra walked ideal)
    (hf : ∀ c, Follows x extra (f (c.after extra)) (g c)) :
    Follows x extra (walked >>= f) (ideal >>= g) := by
  rcases h with hstop | hgo
  · rw [hstop]
    exact .inl rfl
  · rw [hgo]
    cases ideal with
    | error e => exact .inr rfl
    | ok c => exact hf c

theorem visitAll_follows (h : d.Extends d' x extra) (hpath : x ∉ path)
    (hvisit : ∀ n, n ≠ x → ∀ c, Follows x extra (d.visit path n (c.after extra))
      ((d'.without x).visit path n c)) (c : Collected) :
    Follows x extra (d.visitAll path names (c.after extra))
      ((d'.without x).visitAll path (names.filter (· != x)) c) := by
  induction names generalizing c with
  | nil =>
    rw [List.filter_nil, visitAll, visitAll]
    exact .inr rfl
  | cons n ns ih =>
    rw [visitAll]
    by_cases hn : n = x
    · subst hn
      rw [List.filter_cons_of_neg (by simp)]
      exact Follows.bind (g := (d'.without n).visitAll path (ns.filter (· != n)))
        (h.visit_self hpath c) ih
    · rw [List.filter_cons_of_pos (by simpa using hn), visitAll]
      exact (hvisit n hn c).bind ih

theorem visit_follows (h : d.Extends d' x extra) (hpath : x ∉ path) (hname : name ≠ x)
    (c : Collected) :
    Follows x extra (d.visit path name (c.after extra)) ((d'.without x).visit path name c) := by
  -- on the number of groups that are not on the path, as the walk itself
  induction hk : (d'.without x).unentered path using Nat.strongRecOn generalizing path name c with
  | ind k ih =>
    by_cases hmeets : name ∈ path
    · rw [visit, visit, dif_pos hmeets, dif_pos hmeets]
      exact .inr rfl
    have hsame : name ∈ (c.after extra).done ↔ name ∈ c.done := by
      rw [Collected.after, List.mem_append]
      exact or_iff_left fun hx => hname (h.only name hx)
    by_cases hdone : name ∈ c.done
    · rw [visit, visit, dif_neg hmeets, dif_neg hmeets, if_pos hdone, if_pos (hsame.mpr hdone)]
      exact .inr rfl
    have hnew : name ∉ (c.after extra).done := fun hx => hdone (hsame.mp hx)
    have hfind := find?_without x name d'
    cases hg : d'.find? name with
    | none =>
      rw [hg] at hfind
      have hd : d.find? name = none := (h.find name hname).trans hg
      rw [visit_of_find?_eq_none hmeets hnew hd, visit_of_find?_eq_none hmeets hdone hfind]
      exact .inr rfl
    | some g =>
      rw [hg] at hfind
      have hd : d.find? name = some g := (h.find name hname).trans hg
      have hlt : (d'.without x).unentered (path ++ [name]) < k := hk ▸ unentered_lt hmeets hfind
      have hfresh : x ∉ path ++ [name] := by
        simpa [hpath] using fun he : x = name => hname he.symm
      have hentered : Follows x extra (g.entries.foldlM (Collected.register name) (c.after extra))
          ((g.without x).entries.foldlM (Collected.register name) c) :=
        .inr (Collected.foldlM_register_after extra c)
      have hdelegates : ∀ c₁, Follows x extra
          (d.visitAll (path ++ [name]) g.delegates (c₁.after extra))
          ((d'.without x).visitAll (path ++ [name]) (g.without x).delegates c₁) :=
        visitAll_follows h hfresh fun n hn c' => ih _ hlt hfresh hn c' rfl
      rw [visit_of_find? hmeets hnew hd, visit_of_find? hmeets hdone hfind]
      apply hentered.bind
      intro c₁
      apply (hdelegates c₁).bind
      intro c₂
      exact .inr rfl

theorem firstRepeated?_append (seen : List String) {ns : List String} (hx : x ∉ ns) :
    firstRepeated? (seen ++ [x]) ns = firstRepeated? seen ns := by
  induction ns generalizing seen with
  | nil => rfl
  | cons n ns ih =>
    rw [List.mem_cons, not_or] at hx
    have hmem : n ∈ seen ++ [x] ↔ n ∈ seen := by simp [Ne.symm hx.1]
    rw [firstRepeated?, firstRepeated?, ← List.cons_append, ih (n :: seen) hx.2]
    simp only [hmem]

theorem collect_of_distinct (h : firstRepeated? [] (d.groups.map (·.name)) = none) :
    d.collect = d.visitAll [] d.roots {} := by
  rw [collect, h]
  rfl

/-- From the roots of `d'` on, with the groups `extra` done, a walk in `d` stops at `x`, or the
build comes to what the one from `d'` comes to where nothing names `x`. -/
theorem catalog_follows (h : d.Extends d' x extra)
    (hd : d.collect = d.visitAll [] d'.roots (Collected.after extra {}))
    (hd' : firstRepeated? [] (d'.groups.map (·.name)) = none) :
    d.catalog = .error (.unknownGroup x) ∨ d.catalog = (d'.without x).catalog := by
  have hideal : (d'.without x).collect =
      (d'.without x).visitAll [] (d'.roots.filter (· != x)) {} := by
    rw [collect_of_distinct (names_without x d' ▸ hd'), roots_without]
  have hroots : Follows x extra (d.visitAll [] d'.roots (Collected.after extra {}))
      ((d'.without x).visitAll [] (d'.roots.filter (· != x)) {}) :=
    visitAll_follows h List.not_mem_nil
      (fun _ hn c => visit_follows h List.not_mem_nil hn c) {}
  rw [catalog_eq, catalog_eq, hd, hideal]
  rcases hroots with hstop | hgo
  · rw [hstop]
    exact .inl rfl
  · rw [hgo]
    cases (d'.without x).visitAll [] (d'.roots.filter (· != x)) {} with
    | error e => exact .inr rfl
    | ok c => exact .inr rfl

theorem catalog_of_repeated
    (h : firstRepeated? [] (d.groups.map (·.name)) = some name) :
    d.catalog = .error (.duplicateGroup name) := by
  rw [catalog_eq, collect, h]
  rfl

theorem catalog_eq_error {e : CatalogError} (h : d.catalog = .error e) : e.TrueOf d := by
  apply trueOf_of_collect
  rw [catalog_eq] at h
  cases hc : d.collect with
  | error e' =>
    rw [hc] at h
    cases h
    rfl
  | ok c =>
    rw [hc] at h
    cases h

theorem catalog_eq_duplicateGroup_iff :
    d.catalog = .error (.duplicateGroup name) ↔
      firstRepeated? [] (d.groups.map (·.name)) = some name := by
  constructor
  · intro h
    cases hr : firstRepeated? [] (d.groups.map (·.name)) with
    | none =>
      have hone := List.nodup_iff_count_le_one.mp (firstRepeated?_eq_none hr).1 name
      have htwo : 2 ≤ (d.groups.map (·.name)).count name := catalog_eq_error h
      omega
    | some other =>
      rw [catalog_of_repeated hr] at h
      cases h
      rfl
  · exact catalog_of_repeated

/-- Where nothing names `x` it is not reached. -/
theorem catalog_without_ne (x : String) (d : CatalogDraft) :
    (d.without x).catalog ≠ .error (.unknownGroup x) := by
  intro h
  obtain ⟨hroot | ⟨owner, g, -, hg, hx⟩, -⟩ := catalog_eq_error h
  · rw [roots_without] at hroot
    simpa using List.of_mem_filter hroot
  · rw [find?_without] at hg
    obtain ⟨g', -, rfl⟩ := Option.map_eq_some_iff.mp hg
    simpa using List.of_mem_filter hx

theorem catalog_alone (h : ∀ g ∈ d.groups, g.name ≠ x) :
    d.catalog = .error (.unknownGroup x) ∨ d.catalog = (d.without x).catalog := by
  cases hr : firstRepeated? [] (d.groups.map (·.name)) with
  | some name =>
    rw [catalog_of_repeated hr, catalog_of_repeated ((names_without x d).symm ▸ hr)]
    exact .inr rfl
  | none =>
    have hextends : d.Extends d x [] :=
      ⟨fun _ _ => rfl, by simp, .inr (find?_eq_none_iff.mpr h)⟩
    apply catalog_follows hextends _ hr
    rw [collect_of_distinct hr, Collected.after_nil]

end
end CatalogDraft

namespace LaunchPlan

/-- The groups that a plan names and those of them that the other side serves. -/
def remoteDraft (l : LaunchPlan) : CatalogDraft where
  groups := l.groups
  remoteRoots := l.remote

/-- What a launched connection knows of methods. -/
def catalog (l : LaunchPlan) : Except CatalogError Catalog := l.launch.map (·.peer.codec.catalog)

theorem catalog_eq (l : LaunchPlan) : l.catalog = l.draft.catalog := by
  rw [catalog, launch, sessionPeer, peer, CatalogDraft.catalog]
  cases l.draft.build with
  | error e => rfl
  | ok r =>
    cases hl : l.liveness with
    | none => rfl
    | some period => rfl

section
variable {l : LaunchPlan}

theorem draft_groups (h : l.localSide = none) :
    l.draft.groups = { name := "local" } :: l.groups := by
  rw [draft, localPart, h]
  rfl

theorem draft_roots (h : l.localSide = none) : l.draft.roots = "local" :: l.remoteDraft.roots := by
  rw [CatalogDraft.roots, draft, localPart, h]
  rfl

theorem draft_find? (h : l.localSide = none) {name : String} (hname : name ≠ "local") :
    l.draft.find? name = l.remoteDraft.find? name := by
  rw [CatalogDraft.find?, draft_groups h, List.find?_cons_of_neg (by simpa using hname.symm)]
  rfl

theorem draft_find?_local (h : l.localSide = none) :
    l.draft.find? "local" = some { name := "local" } := by
  rw [CatalogDraft.find?, draft_groups h]
  rfl

theorem draft_visit_local (h : l.localSide = none) :
    l.draft.visit [] "local" {} = .ok (Collected.after ["local"] {}) := by
  rw [CatalogDraft.visit_of_find? List.not_mem_nil List.not_mem_nil (draft_find?_local h)]
  rw [Group.entries, List.map_nil, List.foldlM_nil, Steps.pure_eq, ok_bind, CatalogDraft.visitAll]
  rfl

theorem draft_names (h : l.localSide = none) :
    l.draft.groups.map (·.name) = "local" :: l.groups.map (·.name) := by
  rw [draft_groups h]
  rfl

/-- Where no group is called `local`, the added one stands for a name that nothing brings in. -/
theorem catalog_of_local_free (h : l.localSide = none) (hfree : "local" ∉ l.groups.map (·.name)) :
    l.catalog = (l.remoteDraft.without "local").catalog := by
  have hrepeated : firstRepeated? [] (l.draft.groups.map (·.name)) =
      firstRepeated? [] (l.remoteDraft.groups.map (·.name)) := by
    rw [draft_names h]
    exact CatalogDraft.firstRepeated?_append [] hfree
  rw [catalog_eq]
  cases hr : firstRepeated? [] (l.remoteDraft.groups.map (·.name)) with
  | some name =>
    have hr' := (CatalogDraft.names_without "local" l.remoteDraft).symm ▸ hr
    rw [CatalogDraft.catalog_of_repeated (hrepeated.trans hr), CatalogDraft.catalog_of_repeated hr']
  | none =>
    have hextends : l.draft.Extends l.remoteDraft "local" ["local"] :=
      ⟨fun _ hname => draft_find? h hname, by simp, .inl List.mem_cons_self⟩
    have hcollect : l.draft.collect =
        l.draft.visitAll [] l.remoteDraft.roots (Collected.after ["local"] {}) := by
      rw [CatalogDraft.collect_of_distinct (hrepeated.trans hr), draft_roots h,
        CatalogDraft.visitAll, draft_visit_local h, ok_bind]
    apply (CatalogDraft.catalog_follows hextends hcollect hr).resolve_left
    intro he
    obtain ⟨-, hnone⟩ := CatalogDraft.catalog_eq_error he
    cases (CatalogDraft.find?_eq_none_iff.mpr hnone).symm.trans (draft_find?_local h)

theorem catalog_of_local_taken (h : l.localSide = none)
    (htaken : "local" ∈ l.groups.map (·.name)) :
    ∃ name, firstRepeated? [] ("local" :: l.groups.map (·.name)) = some name ∧
      l.catalog = .error (.duplicateGroup name) ∧
      (l.catalog = l.remoteDraft.catalog ↔
        firstRepeated? [] (l.groups.map (·.name)) = some name) := by
  cases hr : firstRepeated? [] ("local" :: l.groups.map (·.name)) with
  | none =>
    have hnodup := (firstRepeated?_eq_none hr).1
    exact absurd htaken (List.nodup_cons.mp hnodup).1
  | some name =>
    rw [← draft_names h] at hr
    have hlaunched := l.catalog_eq.trans (CatalogDraft.catalog_of_repeated hr)
    refine ⟨name, rfl, hlaunched, ?_⟩
    rw [hlaunched, eq_comm]
    exact CatalogDraft.catalog_eq_duplicateGroup_iff

/-- A connection that serves nothing itself is built as the catalog of the other side alone is, or
fails with the same error, unless the name `local` comes up. Where no group has this name it counts
as defined, so the build goes as if nothing named it. Where a group has it the build fails, as from
a list of groups in which that name has come before. -/
theorem catalog_of_no_localSide (l : LaunchPlan) (h : l.localSide = none) :
    ("local" ∉ l.groups.map (·.name) →
      l.catalog = (l.remoteDraft.without "local").catalog ∧
      (l.catalog = l.remoteDraft.catalog ↔
        l.remoteDraft.catalog ≠ .error (.unknownGroup "local"))) ∧
    ("local" ∈ l.groups.map (·.name) →
      ∃ name, firstRepeated? [] ("local" :: l.groups.map (·.name)) = some name ∧
        l.catalog = .error (.duplicateGroup name) ∧
        (l.catalog = l.remoteDraft.catalog ↔
          firstRepeated? [] (l.groups.map (·.name)) = some name)) := by
  refine ⟨fun hfree => ?_, catalog_of_local_taken h⟩
  have hwithout := catalog_of_local_free h hfree
  have hnever := CatalogDraft.catalog_without_ne "local" l.remoteDraft
  have halone : ∀ g ∈ l.remoteDraft.groups, g.name ≠ "local" :=
    fun g hg he => hfree (he ▸ List.mem_map_of_mem hg)
  refine ⟨hwithout, fun hsame hunknown => ?_, fun hknown => ?_⟩
  · exact hnever (hwithout.symm.trans (hsame.trans hunknown))
  · exact hwithout.trans ((CatalogDraft.catalog_alone halone).resolve_left hknown).symm

/-- A group that delegates to `local`, which nobody defines; and groups that have nothing to do with
the name, one of which is reached through the other. -/
theorem catalog_of_no_localSide_delegate :
    let ask : MethodEntry := ⟨"ask", .request, .text, some .bool⟩
    let l : LaunchPlan := { groups := [⟨"peer", "x/", [ask], ["local"]⟩], remote := ["peer"] }
    let l' : LaunchPlan := {
      groups := [⟨"peer", "x/", [ask], ["inner"]⟩, ⟨"inner", "", [ask], []⟩], remote := ["peer"] }
    l.localSide = none ∧ "local" ∉ l.groups.map (·.name) ∧
      l.remoteDraft.catalog = .error (.unknownGroup "local") ∧
      l.catalog = (l.remoteDraft.without "local").catalog ∧
      (l.remoteDraft.without "local").catalog = .ok ⟨[ask.withSegment "x/"]⟩ ∧
      l'.localSide = none ∧ l'.catalog = l'.remoteDraft.catalog ∧
      l'.remoteDraft.catalog = .ok ⟨[ask.withSegment "x/", ask]⟩ := by
  intro ask l l'
  have hl : "local" ∉ l.groups.map (·.name) := by decide
  have hl' : "local" ∉ l'.groups.map (·.name) := by decide
  have hbuilt : l'.remoteDraft.catalog = .ok ⟨[ask.withSegment "x/", ask]⟩ := by cbv
  have hknown : l'.remoteDraft.catalog ≠ .error (.unknownGroup "local") := by
    intro he
    cases hbuilt.symm.trans he
  exact ⟨rfl, hl, by cbv, ((catalog_of_no_localSide l rfl).1 hl).1, by cbv, rfl,
    ((catalog_of_no_localSide l' rfl).1 hl').2.mpr hknown, hbuilt⟩

/-- A delegate that is not defined, and a group that is defined once. -/
theorem local_found_undefined :
    let l : LaunchPlan := { groups := [⟨"client", "", [], ["local"]⟩], remote := ["client"] }
    let l' : LaunchPlan := { groups := [{ name := "local" }], remote := ["local"] }
    l.remoteDraft.catalog = .error (.unknownGroup "local") ∧ l.catalog = .ok ⟨[]⟩ ∧
      l'.remoteDraft.catalog = .ok ⟨[]⟩ ∧ l'.catalog = .error (.duplicateGroup "local") ∧
      ¬ ∀ l : LaunchPlan, l.localSide = none → l.catalog = l.remoteDraft.catalog := by
  intro l l'
  have halone : l.remoteDraft.catalog = .error (.unknownGroup "local") := by cbv
  have hlaunched : l.catalog = .ok ⟨[]⟩ := by cbv
  refine ⟨halone, hlaunched, by cbv, by cbv, fun h => ?_⟩
  have hsame := hlaunched.symm.trans ((h l rfl).trans halone)
  cases hsame

end
end LaunchPlan
end RpcPeer
