import Mathlib.Data.List.Perm.Basic
import RpcPeer.Service.Basic

/-! The services of a tree and the groups that describe them. -/
namespace RpcPeer
namespace Service

/-- A service that is put together from an empty one. -/
inductive Built : Service → Prop
  | empty (name segment : String) : Built (.empty name segment)
  | onRequest {s : Service} (method : String) (h : RequestHandler) (hs : Built s) :
      Built (s.onRequest method h)
  | onNotification {s : Service} (method : String) (h : NotificationHandler) (hs : Built s) :
      Built (s.onNotification method h)
  | delegate {s d : Service} (hs : Built s) (hd : Built d) : Built (s.delegate d)

mutual
/-- A service and all that it delegates to, in the order of a search. -/
def all : Service → List Service
  | mk g rs ns ds => mk g rs ns ds :: allIn ds

def allIn : List Service → List Service
  | [] => []
  | d :: ds => d.all ++ allIn ds
end

def requestEntry (r : String × RequestHandler) : MethodEntry :=
  ⟨r.1, .request, r.2.params, some r.2.result⟩

def notificationEntry (n : String × NotificationHandler) : MethodEntry :=
  ⟨n.1, .notification, n.2.params, none⟩

/-- The group says of each registration what it is, and it names the delegates. -/
structure Described (s : Service) : Prop where
  methods : s.group.methods.Perm
    (s.requests.map requestEntry ++ s.notifications.map notificationEntry)
  delegates : s.group.delegates = s.delegates.map name

section
variable {s t u : Service}

theorem allIn_eq_flatMap (ds : List Service) : allIn ds = ds.flatMap all := by
  induction ds with
  | nil => rfl
  | cons d ds ih => rw [allIn, ih, List.flatMap_cons]

theorem all_eq (s : Service) : s.all = s :: s.delegates.flatMap all := by
  obtain ⟨g, rs, ns, ds⟩ := s
  rw [all, allIn_eq_flatMap]
  rfl

theorem self_mem_all (s : Service) : s ∈ s.all := by
  rw [all_eq]
  exact List.mem_cons_self

mutual
theorem map_group_all : ∀ s : Service, s.all.map group = s.groups
  | mk g rs ns ds => by
    rw [all, List.map_cons, map_group_allIn ds, groups]
    rfl

theorem map_group_allIn : ∀ ds : List Service, (allIn ds).map group = delegateGroups ds
  | [] => rfl
  | d :: ds => by rw [allIn, List.map_append, map_group_all d, map_group_allIn ds, delegateGroups]
end

mutual
theorem findFirst_eq {β : Type} (look : Service → Option β) :
    ∀ s : Service, s.findFirst look = s.all.findSome? look
  | mk g rs ns ds => by
    rw [findFirst, all, List.findSome?_cons, findFirstIn_eq look ds]
    rfl

theorem findFirstIn_eq {β : Type} (look : Service → Option β) :
    ∀ ds : List Service, findFirstIn look ds = (allIn ds).findSome? look
  | [] => rfl
  | d :: ds => by
    rw [findFirstIn, allIn, List.findSome?_append, findFirst_eq look d, findFirstIn_eq look ds]
    cases d.all.findSome? look <;> rfl
end

mutual
/-- What holds of a service and goes over to delegates holds of the whole tree. -/
theorem forall_mem_all {P : Service → Prop} : ∀ s : Service, P s →
    (∀ t ∈ s.all, P t → ∀ u ∈ t.delegates, P u) → ∀ t ∈ s.all, P t
  | mk g rs ns ds, hs, hstep => by
    intro t ht
    rw [all] at ht hstep
    rcases List.mem_cons.mp ht with rfl | ht
    · exact hs
    · exact forall_mem_allIn ds (hstep _ List.mem_cons_self hs)
        (fun u hu => hstep u (List.mem_cons_of_mem _ hu)) t ht

theorem forall_mem_allIn {P : Service → Prop} : ∀ ds : List Service, (∀ d ∈ ds, P d) →
    (∀ t ∈ allIn ds, P t → ∀ u ∈ t.delegates, P u) → ∀ t ∈ allIn ds, P t
  | [], _, _ => by simp [allIn]
  | d :: ds, hds, hstep => by
    intro t ht
    rw [allIn] at ht hstep
    rcases List.mem_append.mp ht with ht | ht
    · exact forall_mem_all d (hds d List.mem_cons_self)
        (fun u hu => hstep u (List.mem_append_left _ hu)) t ht
    · exact forall_mem_allIn ds (fun u hu => hds u (List.mem_cons_of_mem _ hu))
        (fun u hu => hstep u (List.mem_append_right _ hu)) t ht
end

theorem Described.onRequest (h : s.Described) (method : String) (r : RequestHandler) :
    (s.onRequest method r).Described := by
  obtain ⟨g, rs, ns, ds⟩ := s
  refine ⟨?_, h.delegates⟩
  exact (List.perm_append_singleton _ _).trans (h.methods.cons _)

theorem Described.onNotification (h : s.Described) (method : String) (n : NotificationHandler) :
    (s.onNotification method n).Described := by
  obtain ⟨g, rs, ns, ds⟩ := s
  refine ⟨?_, h.delegates⟩
  exact (List.perm_append_singleton _ _).trans
    ((h.methods.cons _).trans List.perm_middle.symm)

theorem Described.delegate (h : s.Described) (d : Service) : (s.delegate d).Described := by
  obtain ⟨g, rs, ns, ds⟩ := s
  refine ⟨h.methods, ?_⟩
  change g.delegates ++ [d.name] = (ds ++ [d]).map name
  rw [List.map_append, show g.delegates = ds.map name from h.delegates]
  rfl

theorem Built.described (h : s.Built) : ∀ t ∈ s.all, t.Described := by
  -- a registration changes the service at the root, and the rest of the tree stays
  have hroot {s s' : Service} (hall : ∀ t ∈ s.all, t.Described) (hd : s'.delegates = s.delegates)
      (hs' : s'.Described) : ∀ t ∈ s'.all, t.Described := by
    intro t ht
    rw [all_eq, hd] at ht
    rcases List.mem_cons.mp ht with rfl | ht
    · exact hs'
    · exact hall t (all_eq s ▸ List.mem_cons_of_mem _ ht)
  induction h with
  | empty name segment =>
    intro t ht
    have he : t = .empty name segment := List.mem_singleton.mp (all_eq (.empty name segment) ▸ ht)
    exact he ▸ ⟨.refl _, rfl⟩
  | @onRequest s method h hs ih =>
    refine hroot ih ?_ ((ih s s.self_mem_all).onRequest method h)
    cases s
    rfl
  | @onNotification s method h hs ih =>
    refine hroot ih ?_ ((ih s s.self_mem_all).onNotification method h)
    cases s
    rfl
  | @delegate s d hs hd ihs ihd =>
    intro t ht
    have hds : (s.delegate d).delegates = s.delegates ++ [d] := by
      cases s
      rfl
    rw [all_eq, hds, List.flatMap_append, List.flatMap_singleton] at ht
    rcases List.mem_cons.mp ht with rfl | ht
    · exact (ihs s s.self_mem_all).delegate d
    · rcases List.mem_append.mp ht with ht | ht
      · exact ihs t (all_eq s ▸ List.mem_cons_of_mem _ ht)
      · exact ihd t ht

end
end Service
end RpcPeer
