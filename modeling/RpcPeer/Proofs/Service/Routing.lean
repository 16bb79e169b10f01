import Mathlib
import RpcPeer.Proofs.Catalog.Building
import RpcPeer.Proofs.Service.Tree
import RpcPeer.Service.Simple

/-! Looking for a handler and looking into the catalog. -/
namespace RpcPeer

theorem Service.afterSegment?_eq_some {segment method name : String} :
    afterSegment? segment method = some name ↔ segment ++ name = method := by
  unfold afterSegment?
  constructor
  · intro h
    split at h
    next hp =>
      obtain ⟨rest, hrest⟩ := List.isPrefixOf_iff_prefix.mp hp
      cases h
      rw [← String.toList_inj, String.toList_append, String.toList_ofList, ← hrest,
        List.drop_left]
    next => cases h
  · rintro rfl
    have hp : segment.toList.isPrefixOf (segment ++ name).toList = true := by
      rw [List.isPrefixOf_iff_prefix, String.toList_append]
      exact List.prefix_append _ _
    rw [if_pos hp, String.toList_append, List.drop_left, String.ofList_toList]

namespace Service

section
variable {η : Type} {handlers : Service → List (String × η)} {method : String} {s t : Service}
  {r : Route η} {d : CatalogDraft} {c : Catalog} {entry : LogEntry}

/-- The registrations of one service under this full name. -/
def candidatesHere (handlers : Service → List (String × η)) (method : String) (s : Service) :
    List (Route η) :=
  ((handlers s).filter fun x => s.group.segment ++ x.1 == method).map fun x => ⟨s.name, x.1, x.2⟩

/-- All registrations of a tree under this full name, whether or not a search would find them. -/
def candidates (handlers : Service → List (String × η)) (method : String) (s : Service) :
    List (Route η) :=
  s.all.flatMap (candidatesHere handlers method)

theorem mem_candidatesHere : r ∈ candidatesHere handlers method s ↔
    r.service = s.name ∧ (r.method, r.handler) ∈ handlers s ∧
      s.group.segment ++ r.method = method := by
  obtain ⟨service, name, h⟩ := r
  simp only [candidatesHere, List.mem_map, List.mem_filter, beq_iff_eq, Route.mk.injEq]
  constructor
  · rintro ⟨⟨n, x⟩, ⟨hmem, hname⟩, rfl, rfl, rfl⟩
    exact ⟨rfl, hmem, hname⟩
  · rintro ⟨rfl, hmem, hname⟩
    exact ⟨(name, h), ⟨hmem, hname⟩, rfl, rfl, rfl⟩

theorem mem_candidates : r ∈ candidates handlers method s ↔
    ∃ t ∈ s.all, r.service = t.name ∧ (r.method, r.handler) ∈ handlers t ∧
      t.group.segment ++ r.method = method := by
  simp only [candidates, List.mem_flatMap, mem_candidatesHere]

theorem mem_of_find?_eq_some (h : Route.find? method s.group (handlers s) = some r) :
    r ∈ candidatesHere handlers method s := by
  obtain ⟨name, hname, h⟩ := Option.bind_eq_some_iff.mp h
  obtain ⟨x, hx, h⟩ := Option.bind_eq_some_iff.mp h
  cases h
  obtain ⟨before, after, hsplit, -⟩ := List.lookup_eq_some_iff.mp hx
  exact mem_candidatesHere.mpr ⟨rfl, by simp [hsplit], afterSegment?_eq_some.mp hname⟩

theorem candidatesHere_of_find?_eq_none
    (h : Route.find? method s.group (handlers s) = none) :
    candidatesHere handlers method s = [] := by
  refine List.eq_nil_iff_forall_not_mem.mpr fun r hr => ?_
  obtain ⟨-, hmem, hname⟩ := mem_candidatesHere.mp hr
  have hlookup : (handlers s).lookup r.method ≠ none := by
    intro hnone
    exact absurd (List.lookup_eq_none_iff.mp hnone _ hmem) (by simp)
  obtain ⟨x, hx⟩ := Option.ne_none_iff_exists'.mp hlookup
  unfold Route.find? at h
  rw [afterSegment?_eq_some.mpr hname] at h
  simp [hx] at h

/-- A search finds a candidate, and where there is but one it finds that one. -/
theorem candidates_eq_findFirst (h : (candidates handlers method s).length ≤ 1) :
    candidates handlers method s =
      (s.findFirst fun t => Route.find? method t.group (handlers t)).toList := by
  rw [findFirst_eq]
  cases hf : s.all.findSome? fun t => Route.find? method t.group (handlers t) with
  | none =>
    have hnone := List.findSome?_eq_none_iff.mp hf
    exact List.flatMap_eq_nil_iff.mpr fun t ht => candidatesHere_of_find?_eq_none (hnone t ht)
  | some r =>
    obtain ⟨before, t, after, hsplit, ht, -⟩ := List.findSome?_eq_some_iff.mp hf
    have hr : r ∈ candidates handlers method s :=
      List.mem_flatMap.mpr ⟨t, by simp [hsplit], mem_of_find?_eq_some ht⟩
    obtain ⟨x, hx⟩ := List.length_eq_one_iff.mp (Nat.le_antisymm h (List.length_pos_of_mem hr))
    rw [hx] at hr ⊢
    rw [List.mem_singleton.mp hr]
    rfl

/-- A draft with the groups of a service, besides others, and the service as a root. -/
structure Serves (d : CatalogDraft) (s : Service) : Prop where
  groups : ∃ extra, d.groups.Perm (s.groups ++ extra)
  root : s.name ∈ d.localRoots

theorem Serves.group_mem (h : Serves d s) (ht : t ∈ s.all) : t.group ∈ d.groups := by
  obtain ⟨extra, hperm⟩ := h.groups
  refine hperm.mem_iff.mpr (List.mem_append_left _ ?_)
  rw [← map_group_all]
  exact List.mem_map_of_mem ht

theorem Serves.nodup (h : Serves d s) (hd : d.Sound) : (s.all.map name).Nodup := by
  obtain ⟨extra, hperm⟩ := h.groups
  have hnodup := (hperm.map (·.name)).nodup_iff.mp hd.once
  rw [List.map_append, ← map_group_all, List.map_map] at hnodup
  exact (List.nodup_append.mp hnodup).1

theorem Serves.entriesOf (h : Serves d s) (hd : d.Sound) (ht : t ∈ s.all) :
    d.entriesOf t.name = t.group.entries :=
  CatalogDraft.entriesOf_of_find? (CatalogDraft.find?_of_mem hd.once (h.group_mem ht))

theorem Serves.reachable (h : Serves d s) (hs : s.Built) (hd : d.Sound) :
    ∀ t ∈ s.all, d.Reachable t.name := by
  refine forall_mem_all s ?_ fun t ht hreach u hu => ?_
  · exact .of_root (List.mem_append_left _ h.root)
  · refine hreach.step ⟨t.group, CatalogDraft.find?_of_mem hd.once (h.group_mem ht), ?_⟩
    rw [(hs.described t ht).delegates]
    exact List.mem_map_of_mem hu

/-- No two methods of a tree have one full name. -/
theorem Serves.fullNames (h : Serves d s) (hs : s.Built) (hd : d.Sound) :
    (s.all.flatMap fun t => t.group.entries.map (·.name)).Nodup := by
  have hall : ∀ n ∈ s.all.map name, d.Reachable n := by
    intro n hn
    obtain ⟨t, ht, rfl⟩ := List.mem_map.mp hn
    exact h.reachable hs hd t ht
  have hnodup : ((s.all.map name).flatMap d.fullNames).Nodup :=
    (CatalogDraft.nodup_fullNames_iff (h.nodup hd)).mpr fun a ha b hb i j m n hm hn hname =>
      hd.distinct a i m b j n ⟨hall a ha, hm⟩ ⟨hall b hb, hn⟩ hname
  rw [List.flatMap_map] at hnodup
  have heq : (s.all.flatMap fun t => t.group.entries.map (·.name)) =
      s.all.flatMap fun t => d.fullNames t.name :=
    List.flatMap_congr fun t ht => by rw [CatalogDraft.fullNames, h.entriesOf hd ht]
  rw [heq]
  exact hnodup

/-- How the registrations of one kind appear in the group of a service. -/
structure Describes (sort : MethodKind) (handlers : Service → List (String × η))
    (describe : String × η → MethodEntry) : Prop where
  name : ∀ x, (describe x).name = x.1
  kind : ∀ x, (describe x).kind = sort
  listed : ∀ s : Service, s.Described → ((handlers s).map describe).Subperm s.group.methods
  complete : ∀ s : Service, s.Described → ∀ m ∈ s.group.methods, m.kind = sort →
    m ∈ (handlers s).map describe

theorem describes_requests : Describes .request requests requestEntry where
  name _ := rfl
  kind _ := rfl
  listed s h := (List.sublist_append_left _ _).subperm.trans h.methods.symm.subperm
  complete s h m hm hkind := by
    rcases List.mem_append.mp (h.methods.mem_iff.mp hm) with hm | hm
    · exact hm
    · obtain ⟨x, -, rfl⟩ := List.mem_map.mp hm
      cases hkind

theorem describes_notifications : Describes .notification notifications notificationEntry where
  name _ := rfl
  kind _ := rfl
  listed s h := (List.sublist_append_right _ _).subperm.trans h.methods.symm.subperm
  complete s h m hm hkind := by
    rcases List.mem_append.mp (h.methods.mem_iff.mp hm) with hm | hm
    · obtain ⟨x, -, rfl⟩ := List.mem_map.mp hm
      cases hkind
    · exact hm

/-- What a search for a method and the catalog have to do with each other. -/
structure Routed (s : Service) (c : Catalog) (method : String) (kind : MethodKind)
    (handlers : Service → List (String × η)) (describe : String × η → MethodEntry)
    (found : Option (Route η)) : Prop where
  /-- What is found is the only candidate. -/
  only : candidates handlers method s = found.toList
  /-- Something is found exactly if a group of the tree has such a method of this kind. -/
  found_iff : found.isSome ↔ ∃ g ∈ s.groups, ∃ m ∈ g.entries, m.kind = kind ∧ m.name = method
  /-- The handler that is found is registered in a service of the tree, and the catalog has the
  full name with the kind and the shapes of this registration. -/
  described : ∀ r, found = some r →
    (∃ t ∈ s.all, r.service = t.name ∧ (r.method, r.handler) ∈ handlers t ∧
      t.group.segment ++ r.method = method) ∧
    c.find? method = some { describe (r.method, r.handler) with name := method }

variable {kind : MethodKind} {describe : String × η → MethodEntry}

theorem Describes.length_candidatesHere_le (hk : Describes kind handlers describe)
    (ht : t.Described) : (candidatesHere handlers method t).length ≤
      (t.group.entries.map (·.name)).count method := by
  have hhere : (candidatesHere handlers method t).length =
      ((handlers t).map describe).countP fun m => t.group.segment ++ m.name == method := by
    rw [candidatesHere, List.length_map, ← List.countP_eq_length_filter, List.countP_map]
    exact List.countP_congr fun x _ => by simp [hk.name]
  have hnames : (t.group.entries.map (·.name)).count method =
      t.group.methods.countP fun m => t.group.segment ++ m.name == method := by
    rw [Group.entries, List.map_map, List.count, List.countP_map]
    rfl
  rw [hhere, hnames]
  exact (hk.listed t ht).countP_le _

theorem Describes.length_candidates_le (hk : Describes kind handlers describe) (h : Serves d s)
    (hs : s.Built) (hd : d.Sound) : (candidates handlers method s).length ≤ 1 := by
  calc (candidates handlers method s).length
      = (s.all.map fun t => (candidatesHere handlers method t).length).sum := List.length_flatMap
    _ ≤ (s.all.map fun t => (t.group.entries.map (·.name)).count method).sum :=
        List.sum_le_sum fun t ht => hk.length_candidatesHere_le (hs.described t ht)
    _ = (s.all.flatMap fun t => t.group.entries.map (·.name)).count method :=
        List.count_flatMap.symm
    _ ≤ 1 := List.nodup_iff_count_le_one.mp (h.fullNames hs hd) method

theorem Describes.mem_entries (hk : Describes kind handlers describe) (ht : t.Described)
    (hmem : (r.method, r.handler) ∈ handlers t) (hname : t.group.segment ++ r.method = method) :
    { describe (r.method, r.handler) with name := method } ∈ t.group.entries := by
  have hm := (hk.listed t ht).subset (List.mem_map_of_mem hmem)
  have he := List.mem_map_of_mem (f := (·.withSegment t.group.segment)) hm
  rw [MethodEntry.withSegment, hk.name, hname] at he
  exact he

theorem Describes.routed (hk : Describes kind handlers describe) (h : Serves d s) (hs : s.Built)
    (hb : d.build = .ok (c, entry)) (method : String) :
    s.Routed c method kind handlers describe
      (s.findFirst fun t => Route.find? method t.group (handlers t)) := by
  have hd : d.Sound := CatalogDraft.exists_build_iff.mp ⟨_, hb⟩
  have hle : (candidates handlers method s).length ≤ 1 := hk.length_candidates_le h hs hd
  have honly := candidates_eq_findFirst hle
  generalize s.findFirst (fun t => Route.find? method t.group (handlers t)) = found at honly ⊢
  refine ⟨honly, ⟨fun hsome => ?_, ?_⟩, fun r hr => ?_⟩
  · obtain ⟨r, rfl⟩ := Option.isSome_iff_exists.mp hsome
    have hr : r ∈ candidates handlers method s := honly ▸ List.mem_singleton_self r
    obtain ⟨t, ht, -, hmem, hname⟩ := mem_candidates.mp hr
    refine ⟨t.group, map_group_all s ▸ List.mem_map_of_mem ht, _,
      hk.mem_entries (hs.described t ht) hmem hname, hk.kind _, rfl⟩
  · rintro ⟨g, hg, m, hm, hkind, hname⟩
    rw [← map_group_all] at hg
    obtain ⟨t, ht, rfl⟩ := List.mem_map.mp hg
    obtain ⟨n, hn, rfl⟩ := List.mem_map.mp hm
    obtain ⟨x, hx, rfl⟩ := List.mem_map.mp (hk.complete t (hs.described t ht) n hn hkind)
    have hr : (⟨t.name, x.1, x.2⟩ : Route η) ∈ candidates handlers method s :=
      mem_candidates.mpr ⟨t, ht, rfl, hx, hk.name x ▸ hname⟩
    rw [honly, Option.mem_toList] at hr
    exact Option.isSome_iff_exists.mpr ⟨_, hr⟩
  · have hmem : r ∈ candidates handlers method s := by
      rw [honly, hr]
      exact List.mem_singleton_self r
    obtain ⟨t, ht, hservice, hin, hname⟩ := mem_candidates.mp hmem
    refine ⟨⟨t, ht, hservice, hin, hname⟩, (CatalogDraft.find?_of_build hb).mpr ⟨rfl, ?_⟩⟩
    refine CatalogDraft.exists_registers_iff.mpr ⟨t.name, h.reachable hs hd t ht, ?_⟩
    rw [h.entriesOf hd ht]
    exact hk.mem_entries (hs.described t ht) hin hname

end

/-- In a connection whose catalog can be built, every registration of a tree of services can be
called: a search finds the only candidate for a full name, if there is one, and the catalog has that
name with the kind and the shapes of the registration. -/
theorem routed_of_build {s : Service} (hs : s.Built) {d : CatalogDraft} (h : Serves d s)
    {c : Catalog} {entry : LogEntry} (hb : d.build = .ok (c, entry)) (method : String) :
    s.Routed c method .request requests requestEntry (s.findRequest method) ∧
      s.Routed c method .notification notifications notificationEntry
        (s.findNotification method) :=
  ⟨describes_requests.routed h hs hb method, describes_notifications.routed h hs hb method⟩

/-- The segment of a service goes on with the beginning of a method of its delegate, and a second
delegate has no segment. -/
theorem routed_of_build_overlapping_segments :
    let plain := (Service.empty "plain").onNotification "a/b/c" (.ignore .bool)
    let outer := ((Service.empty "outer" "a/").onRequest "b/x" (.echo .text)).delegate plain
    let s := ((Service.empty "top" "a/b/").onRequest "y" (.say .json "y")).delegate outer
    let d : CatalogDraft := {
      groups := ⟨"remote", "a/b/", [⟨"z", .request, .text, some .text⟩], []⟩ :: s.groups
      localRoots := [s.name]
      remoteRoots := ["remote"] }
    s.Built ∧ Serves d s ∧ ∃ c entry, d.build = .ok (c, entry) ∧
      (s.findRequest "a/b/x").map (·.service) = some "outer" ∧
      c.find? "a/b/x" = some ⟨"a/b/x", .request, .text, some .text⟩ ∧
      (candidates notifications "a/b/c" s).map (·.service) = ["plain"] ∧
      s.findRequest "a/b/z" = none := by
  intro plain outer s d
  have hs : s.Built :=
    .delegate (.onRequest _ _ (.empty _ _))
      (.delegate (.onRequest _ _ (.empty _ _)) (.onNotification _ _ (.empty _ _)))
  have h : Serves d s := ⟨⟨_, (List.perm_append_singleton _ _).symm⟩, by decide⟩
  have hb : ∃ r, d.build = .ok r := ⟨_, by cbv⟩
  obtain ⟨⟨c, entry⟩, hb⟩ := hb
  have hx := (routed_of_build hs h hb "a/b/x").1
  have hc := (routed_of_build hs h hb "a/b/c").2
  have hz := (routed_of_build hs h hb "a/b/z").1
  have hfound : s.findRequest "a/b/x" = some ⟨"outer", "b/x", .echo .text⟩ := by cbv
  refine ⟨hs, h, c, entry, hb, by rw [hfound]; rfl, (hx.described _ hfound).2, ?_, ?_⟩
  · rw [hc.only]
    cbv
  · rw [← Option.not_isSome_iff_eq_none, hz.found_iff]
    decide

end Service
end RpcPeer
