import RpcPeer.Proofs.Dispatcher.Served
import RpcPeer.Proofs.Service.Routing

/-! Requests for methods that the services of this side do not serve. -/
namespace RpcPeer

/-- A group of the tree has a request of this full name. -/
def Service.HasRequest (s : Service) (method : String) : Prop :=
  ∃ g ∈ s.groups, ∃ m ∈ g.entries, m.kind = .request ∧ m.name = method

/-- A turn does not interfere with the request of this id, which may have become the call with this
key: it is not cancelled, its handler does what the service says, and messages are still taken. -/
structure Turn.Spares (key : Nat) (id : MessageId) (t : Turn) : Prop where
  uncancelled : t.cancels id = false
  unsettled : ∀ v, t ≠ .act (.call key (.settle v))
  listens : t ≠ .act (.listen false)

/-- The error of a request for a method that is not served. -/
def unsupported (method : String) : ResponseError :=
  .ofCode .methodNotFound s!"Unsupported request method: {method}"

namespace Surroundings

/-- A call of this method finds no handler, and its failure gets to the other side as it is. -/
structure Lacks (e : Surroundings) (method : String) : Prop where
  handler : e.service.findRequest method = none
  policy : e.policy = defaultPolicy
  listening : e.listening = true

variable {e : Surroundings} {method : String} {key : Nat} {id : MessageId} {t : Turn}
  {ts : List Turn}

theorem service_turn (e : Surroundings) (t : Turn) : (e.turn t).service = e.service := by
  unfold turn
  split <;> rfl

theorem policy_turn (e : Surroundings) (t : Turn) : (e.turn t).policy = e.policy := by
  unfold turn
  split <;> rfl

theorem service_turns (e : Surroundings) (ts : List Turn) :
    (e.turns ts).service = e.service := by
  induction ts generalizing e with
  | nil => rfl
  | cons t ts ih => exact (ih (e.turn t)).trans (service_turn e t)

theorem policy_turns (e : Surroundings) (ts : List Turn) : (e.turns ts).policy = e.policy := by
  induction ts generalizing e with
  | nil => rfl
  | cons t ts ih => exact (ih (e.turn t)).trans (policy_turn e t)

theorem Lacks.turn (h : e.Lacks method) (ht : t.Spares key id) : (e.turn t).Lacks method where
  handler := by
    rw [service_turn]
    exact h.handler
  policy := (policy_turn e t).trans h.policy
  listening := by
    unfold Surroundings.turn
    split
    next b =>
      cases b with
      | true => rfl
      | false => exact absurd rfl ht.listens
    next => exact h.listening
    next => exact h.listening

end Surroundings

section
variable {e : Surroundings} {c : Call} {t : Turn} {ts : List Turn}

theorem Call.poll_of_lacks (h : e.Lacks c.method) (hc : c.cancelled = false)
    (ha : c.activity = none) :
    c.poll e .run = .ended (.answered (.error (unsupported c.method))) true := by
  have hcall : (e.service.callRequest c.method c.params).2 =
      .done (.fault (.methodNotFound c.method)) := by
    unfold Service.callRequest
    rw [h.handler]
  have hending : c.ending e.policy (.fault (.methodNotFound c.method)) =
      .answered (.error (e.policy c.method (.methodNotFound c.method)).1) := rfl
  rw [Call.poll_run e hc, ha, Option.getD_none, hcall, h.listening]
  dsimp only [Activity.resume]
  rw [hending, h.policy]
  rfl

/-- A turn lets such a call be, or it is its first poll, which ends it. -/
theorem Call.turn_of_lacks (h : e.Lacks c.method) (hc : c.cancelled = false)
    (ha : c.activity = none) (ht : t.Spares c.key c.id) :
    c.turn e t = if t.polls c.key then .ended (.answered (.error (unsupported c.method))) true
      else .inFlight c := by
  split
  next hpolls =>
    obtain ⟨m, rfl⟩ := Turn.eq_of_polls hpolls
    cases m with
    | settle v => exact absurd rfl (ht.unsettled v)
    | run => rw [Call.turn_call_self, Call.poll_of_lacks h hc ha]
  next hpolls =>
    cases t with
    | act a =>
      cases a with
      | call key m =>
        have hne : c.key ≠ key := fun hk => hpolls (by simp [Turn.polls, hk])
        exact Call.turn_call_of_ne e hne m
      | consume m =>
        have hm : m.cancels c.id = false := ht.uncancelled
        simp [Call.turn, hm]
      | request | cancel | abandon | listen | encode => rfl
    | cancelCalls => cases ht.uncancelled
    | reject | openGate | release => rfl

/-- Through a run such a call stays as it is until its first poll. -/
theorem CallState.turns_of_lacks (h : e.Lacks c.method) (hc : c.cancelled = false)
    (ha : c.activity = none) (hts : ∀ t ∈ ts, t.Spares c.key c.id) :
    (inFlight c).turns e ts =
      if ts.any (·.polls c.key) then ended (.answered (.error (unsupported c.method))) true
      else inFlight c := by
  induction ts generalizing e with
  | nil => rfl
  | cons t ts ih =>
    have ht := hts t List.mem_cons_self
    rw [turns, turn, Call.turn_of_lacks h hc ha ht, List.any_cons]
    cases t.polls c.key with
    | true => exact turns_ended ..
    | false => exact ih (h.turn ht) fun u hu => hts u (List.mem_cons_of_mem _ hu)

end

theorem Dispatcher.catalog_turns (d : Dispatcher) (ts : List Turn) :
    (d.turns ts).catalog = d.catalog := by
  induction ts generalizing d with
  | nil => rfl
  | cons t ts ih => exact ih (d.turn t)

namespace Peer

/-- What is written for a message: by the turn that takes it in, and by the polls of the call that
it becomes in the turns behind. -/
def writtenAbout (p : Peer) (m : Message) (after : List Turn) : List Message :=
  let t : Turn := .act (.consume m)
  (p.turn t).outgoing.drop p.outgoing.length ++
    (p.dispatcher.admitted t).flatMap fun c => (p.turn t).answersOf c.key after

variable {p : Peer} {id : MessageId} {method : String} {params : Payload} {after : List Turn}

theorem outgoing_respond (h : p.listening = true) (o : Outcome) :
    (p.respond id method o).outgoing =
      p.outgoing ++ [.response (some id) (some method) o] := by
  have ht := congrArg Tables.outgoing (tables_respond p id method o)
  have hl : p.tables.listening = true := h
  rw [Tables.post, hl] at ht
  exact ht

/-- The dispatcher refuses what is in no catalog. -/
theorem writtenAbout_of_unknown (hk : p.codec.catalog.contains method = false)
    (hl : p.listening = true) (params : Payload) (after : List Turn) :
    p.writtenAbout (.request id method params) after =
      [.response (some id) (some method) (.error (unsupported method))] := by
  have ha : p.dispatcher.admitted (.act (.consume (.request id method params))) = [] := by
    simp [Dispatcher.admitted, dispatcher, hk]
  have hout : (p.handleRequest id method params).outgoing =
      p.outgoing ++ [.response (some id) (some method) (.error (unsupported method))] := by
    rw [handleRequest_of_unknown hk]
    exact outgoing_respond (p := p.log .warn _) hl _
  rw [writtenAbout, ha, List.flatMap_nil, List.append_nil]
  change (p.handleRequest id method params).outgoing.drop p.outgoing.length = _
  rw [hout, List.drop_left]

/-- A call that finds no handler is answered by its first poll. -/
theorem writtenAbout_of_lacks (h : p.dispatcher.Orderly)
    (hk : p.codec.catalog.contains method = true) (hfree : ∀ c ∈ p.calls, c.id ≠ id)
    (he : p.dispatcher.surroundings.Lacks method)
    (hafter : ∀ t ∈ after, t.Spares p.nextKey id) :
    p.writtenAbout (.request id method params) after =
      if after.any (·.polls p.nextKey) then
        [.response (some id) (some method) (.error (unsupported method))]
      else [] := by
  let t : Turn := .act (.consume (.request id method params))
  let c : Call := p.dispatcher.newCall id method params
  have ha : p.dispatcher.admitted t = [c] := Dispatcher.admitted_of_free hk hfree params
  have hc : c ∈ (p.turn t).calls :=
    (mem_calls_turn h).mpr (.inr (ha ▸ List.mem_singleton_self c))
  have hout : (p.turn t).outgoing = p.outgoing := by
    change (p.handleRequest id method params).outgoing = p.outgoing
    rw [handleRequest_of_free hk hfree]
    rfl
  have hsurroundings : (p.turn t).dispatcher.surroundings = p.dispatcher.surroundings := by
    rw [dispatcher_turn h t]
    rfl
  have hstate := CallState.turns_of_lacks (c := c) he rfl rfl hafter
  have hwritten : p.writtenAbout (.request id method params) after =
      (p.turn t).outgoing.drop p.outgoing.length ++
        [c].flatMap fun c => (p.turn t).answersOf c.key after := by
    rw [writtenAbout, ← ha]
  rw [hwritten, hout, List.drop_length, List.nil_append, List.flatMap_singleton,
    answersOf_of_mem (orderly_turn h t) hc, hsurroundings, hstate]
  change CallState.responses c (if after.any (·.polls p.nextKey) then _ else _) = _
  split <;> rfl

end Peer

/-- A request for a method that is no request of the services of this side is answered once, by an
error that says so: at once if the method is in no catalog, or else when the call that it becomes is
polled first. -/
theorem foreign_requests_answered_once {s : Service} (hs : s.Built) {d : CatalogDraft}
    (h : Service.Serves d s) {p : Peer} {entry : LogEntry}
    (hb : d.build = .ok (p.codec.catalog, entry)) (hservice : p.service = s)
    (hpolicy : p.policy = defaultPolicy) (hcalls : p.calls = []) (before : List Turn)
    (id : MessageId) (method : String) (params : Payload) (hforeign : ¬ s.HasRequest method)
    (after : List Turn) :
    let q := p.turns before
    let answer : Message := .response (some id) (some method)
      (.error (.ofCode .methodNotFound s!"Unsupported request method: {method}"))
    q.listening = true → (∀ c ∈ q.calls, c.id ≠ id) → (∀ t ∈ after, t.Spares q.nextKey id) →
      q.writtenAbout (.request id method params) after =
        if q.codec.catalog.contains method && !after.any (·.polls q.nextKey) then []
        else [answer] := by
  intro q answer hl hfree hafter
  have horderly := Peer.orderly_of_calls_nil hcalls
  have hq : q.dispatcher = p.dispatcher.turns before := Peer.dispatcher_turns horderly before
  have hcatalog : q.codec.catalog = p.codec.catalog :=
    (congrArg Dispatcher.catalog hq).trans (Dispatcher.catalog_turns _ before)
  have hnone : s.findRequest method = none := by
    have hfound := (Service.routed_of_build hs h hb method).1.found_iff
    exact Option.not_isSome_iff_eq_none.mp fun hsome => hforeign (hfound.mp hsome)
  have hlacks : q.dispatcher.surroundings.Lacks method := by
    have hsurroundings : q.dispatcher.surroundings = p.dispatcher.surroundings.turns before := by
      rw [hq, Dispatcher.surroundings_turns]
    refine ⟨?_, ?_, hl⟩ <;> rw [hsurroundings]
    · rw [Surroundings.service_turns]
      change p.service.findRequest method = none
      rw [hservice, hnone]
    · rw [Surroundings.policy_turns]
      exact hpolicy
  cases hk : q.codec.catalog.contains method with
  | false => exact Peer.writtenAbout_of_unknown hk hl params after
  | true =>
    rw [Peer.writtenAbout_of_lacks (Peer.orderly_turns horderly before) hk hfree hlacks hafter]
    cases after.any (·.polls q.nextKey) <;> rfl

/-- A method that nobody has, one of the other side and a notification of this side, while another
call is in flight. The call that a request becomes may be polled again. -/
theorem foreign_requests_answered_once_three_kinds :
    let ask : MethodEntry := ⟨"y", .request, .text, some .text⟩
    let s := ((Service.empty "srv").onRequest "x" (.echo .text)).onNotification "n" (.ignore .bool)
    let d : CatalogDraft := {
      groups := s.groups ++ [⟨"peer", "p/", [ask], []⟩]
      localRoots := ["srv"]
      remoteRoots := ["peer"] }
    let c : Catalog := ⟨[⟨"x", .request, .text, some .text⟩, ⟨"n", .notification, .bool, none⟩,
      ask.withSegment "p/"]⟩
    let p : Peer := { codec := ⟨.base, c, 1⟩, service := s }
    let q := p.turns [.act (.consume (.request (.number 1) "x" .absent))]
    let polls : List Turn := [.release, .act (.call 1 .run), .act (.call 0 .run),
      .act (.call 1 .run)]
    let answer (method : String) : Message := .response (some (.number 7)) (some method)
      (.error (.ofCode .methodNotFound s!"Unsupported request method: {method}"))
    s.Built ∧ Service.Serves d s ∧ (∃ entry, d.build = .ok (c, entry)) ∧ q.calls.length = 1 ∧
      q.writtenAbout (.request (.number 7) "nowhere" .absent) [] = [answer "nowhere"] ∧
      q.writtenAbout (.request (.number 7) "p/y" .absent) (polls.take 2) = [answer "p/y"] ∧
      q.writtenAbout (.request (.number 7) "n" .absent) polls = [answer "n"] := by
  intro ask s d c p q polls answer
  have hs : s.Built := .onNotification _ _ (.onRequest _ _ (.empty _ _))
  have h : Service.Serves d s := ⟨⟨_, .refl _⟩, by decide⟩
  have hb : ∃ entry, d.build = .ok (c, entry) := ⟨_, by cbv⟩
  have hentries : ∀ g ∈ s.groups, ∀ m ∈ g.entries, m.kind = .request → m.name = "x" := by
    intro g hg m hm hkind
    obtain rfl := List.mem_singleton.mp hg
    simp only [Group.entries] at hm
    rcases hm with _ | ⟨_, _ | ⟨_, ⟨⟩⟩⟩
    · rfl
    · cases hkind
  have hforeign : ∀ method, method ≠ "x" → ¬ s.HasRequest method := by
    rintro method hne ⟨g, hg, m, hm, hkind, rfl⟩
    exact hne (hentries g hg m hm hkind)
  have hfree : ∀ b ∈ q.calls, b.id ≠ .number 7 := by decide
  have hspares : ∀ t ∈ polls, t.Spares 1 (.number 7) := by
    intro t ht
    simp only [polls, List.mem_cons, List.not_mem_nil, or_false] at ht
    rcases ht with rfl | rfl | rfl | rfl <;> exact ⟨rfl, by simp, by simp⟩
  obtain ⟨entry, hentry⟩ := hb
  have hall (method : String) (hne : method ≠ "x") (after : List Turn) :=
    foreign_requests_answered_once hs h (p := p) hentry rfl rfl rfl
      [.act (.consume (.request (.number 1) "x" .absent))] (.number 7) method .absent
      (hforeign method hne) after rfl hfree
  refine ⟨hs, h, ⟨entry, hentry⟩, rfl, ?_, ?_, ?_⟩
  · have hnone : ∀ t ∈ ([] : List Turn), t.Spares 1 (.number 7) :=
      fun t ht => absurd ht List.not_mem_nil
    exact (hall "nowhere" (by decide) [] hnone).trans (if_neg (by decide))
  · have htake : ∀ t ∈ polls.take 2, t.Spares 1 (.number 7) :=
      fun t ht => hspares t (List.mem_of_mem_take ht)
    exact (hall "p/y" (by decide) (polls.take 2) htake).trans (if_neg (by decide))
  · exact (hall "n" (by decide) polls hspares).trans (if_neg (by decide))

end RpcPeer
