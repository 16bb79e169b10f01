import RpcPeer.Proofs.Dispatcher.Refinement

/-! The notifications among the messages that come in, handled in their order. -/
namespace RpcPeer

/-- What receives notifications, with a memory of its own. Whenever it goes on it may do anything
with the peer but change its catalog, and it returns when it gives a verdict. -/
structure Recipient (σ : Type) where
  call : σ → String → Payload → σ
  resume : σ → Peer → σ × Peer × Option (Verdict Unit)
  catalog_resume : ∀ s p, (resume s p).2.1.codec.catalog = p.codec.catalog

/-- The message that comes in in a turn. -/
def Turn.message? : Turn → Option Message
  | act (.consume m) => some m
  | _ => none

theorem Turn.eq_of_message?_eq_some {t : Turn} {m : Message} (h : t.message? = some m) :
    t = act (.consume m) := by
  unfold message? at h
  split at h
  next => rw [Option.some.inj h]
  next => cases h

/-- What the recipient is called with if a message is for it. -/
def Message.handed? (catalog : Catalog) : Message → Option (String × Payload)
  | .notification method params =>
    if method ≠ cancelMethod ∧ catalog.contains method = true then some (method, params) else none
  | _ => none

/-- What is seen of the messages that come in. -/
inductive Intake.Entry
  | routed (m : Message)
  | called (method : String) (params : Payload)
  | returned (v : Verdict Unit)

namespace Intake.Entry

def called? : Entry → Option (String × Payload)
  | called method params => some (method, params)
  | _ => none

def isCall : Entry → Bool
  | called .. => true
  | _ => false

def isReturn : Entry → Bool
  | returned _ => true
  | _ => false

end Intake.Entry

/-- A peer with the messages that come in. -/
structure Intake (σ : Type) where
  peer : Peer
  memory : σ
  /-- The messages that have not been routed, the oldest first. -/
  inbox : List Message
  /-- The method of the notification that is being handled. -/
  serving : Option String := none
  trace : List Intake.Entry := []

namespace Intake

/-- What can happen to a peer while messages come in. -/
inductive Move
  /-- The next message is routed, unless a notification is being handled. -/
  | next
  /-- The recipient goes on with the notification that it handles. -/
  | resume
  /-- Anything else that can happen to the peer. -/
  | turn (t : Turn) (apart : t.message? = none)

variable {σ : Type}

def note (s : Intake σ) (e : Entry) : Intake σ := { s with trace := s.trace ++ [e] }

/-- As for a peer alone, but the recipient is only called here and goes on by itself. -/
def handleNotification (r : Recipient σ) (s : Intake σ) (method : String) (params : Payload) :
    Intake σ :=
  match s.peer.handleOwnNotification? method params with
  | some peer => { s with peer }
  | none =>
    { s with memory := r.call s.memory method params, serving := some method }.note
      (.called method params)

def route (r : Recipient σ) (s : Intake σ) : Message → Intake σ
  | .notification method params => s.handleNotification r method params
  | m => { s with peer := s.peer.consume m }

def next (r : Recipient σ) (s : Intake σ) : Intake σ :=
  match s.serving, s.inbox with
  | none, m :: ms => ({ s with inbox := ms }.note (.routed m)).route r m
  | _, _ => s

def resume (r : Recipient σ) (s : Intake σ) : Intake σ :=
  match s.serving with
  | none => s
  | some method =>
    let step := r.resume s.memory s.peer
    let s := { s with memory := step.1, peer := step.2.1 }
    match step.2.2 with
    | none => s
    | some v => { s with peer := s.peer.logVerdict method v, serving := none }.note (.returned v)

def move (r : Recipient σ) (s : Intake σ) : Move → Intake σ
  | .next => s.next r
  | .resume => s.resume r
  | .turn t _ => { s with peer := s.peer.turn t }

def run (r : Recipient σ) (s : Intake σ) (ms : List Move) : Intake σ := ms.foldl (move r) s

/-- A trace that is all there is to see of these messages: each one is routed when the handling of
the last one has returned, and the recipient is called once if the message is for it. -/
inductive Attended (catalog : Catalog) : List Message → Option String → List Entry → Prop
  | start : Attended catalog [] none []
  | passed {ms : List Message} {es : List Entry} {m : Message}
      (before : Attended catalog ms none es) (other : m.handed? catalog = none) :
      Attended catalog (ms ++ [m]) none (es ++ [.routed m])
  | called {ms : List Message} {es : List Entry} {m : Message} {method : String} {params : Payload}
      (before : Attended catalog ms none es) (handed : m.handed? catalog = some (method, params)) :
      Attended catalog (ms ++ [m]) (some method) (es ++ [.routed m] ++ [.called method params])
  | returned {ms : List Message} {es : List Entry} {method : String}
      (before : Attended catalog ms (some method) es) (v : Verdict Unit) :
      Attended catalog ms none (es ++ [.returned v])

/-- The messages `ms` are those that have been routed, as the trace shows, and those that wait. -/
structure Sound (catalog : Catalog) (ms : List Message) (s : Intake σ) : Prop where
  catalog_eq : s.peer.codec.catalog = catalog
  attended : ∃ done, ms = done ++ s.inbox ∧ Attended catalog done s.serving s.trace

/-- What the next move can do: it lets nothing wait for ever, and only the recipient itself sends
messages or touches the requests that wait for their responses when a notification is handled. -/
structure Contained (r : Recipient σ) (s : Intake σ) : Prop where
  goes_on : s.serving = none → ∀ m ms, s.inbox = m :: ms → (s.next r).inbox = ms
  returns : ∀ method v, s.serving = some method → (r.resume s.memory s.peer).2.2 = some v →
    (s.resume r).serving = none
  next_quiet : ∀ method params ms, s.inbox = .notification method params :: ms →
    (s.next r).peer.outgoing = s.peer.outgoing ∧ (s.next r).peer.pending = s.peer.pending
  resume_quiet : ∀ method, s.serving = some method →
    (s.resume r).peer.outgoing = (r.resume s.memory s.peer).2.1.outgoing ∧
      (s.resume r).peer.pending = (r.resume s.memory s.peer).2.1.pending

end Intake

/-- The service of a peer as the recipient of its notifications. It handles them at once. -/
def Recipient.ofService : Recipient (Option (String × Payload)) where
  call _ method params := some (method, params)
  resume s p :=
    match s with
    | none => (none, p, some (.value ()))
    | some (method, params) =>
      let answer := p.service.callNotification method params
      (none, p.recordInvocation answer.1, some answer.2)
  catalog_resume s p := by
    cases s with
    | none => rfl
    | some called =>
      change (p.recordInvocation (p.service.callNotification called.1 called.2).1).codec.catalog = _
      unfold Peer.recordInvocation
      split <;> rfl

/-- The turns of a peer alone. A message is routed and handled before anything else happens. -/
def Intake.movesOf : List Turn → List Intake.Move
  | [] => []
  | t :: ts =>
    match h : t.message? with
    | some _ => .next :: .resume :: movesOf ts
    | none => .turn t h :: movesOf ts

namespace Peer

theorem catalog_settle (p : Peer) (c : Call) (v : Verdict Payload) :
    (p.settle c v).codec.catalog = p.codec.catalog :=
  congrArg Dispatcher.catalog (ends_settle p c v).dispatcher

theorem catalog_runCall (p : Peer) (key : Nat) :
    (p.runCall key).codec.catalog = p.codec.catalog := by
  cases hf : p.calls.find? (·.key == key) with
  | none => simp only [runCall, hf]
  | some c =>
    cases hc : c.cancelled with
    | true =>
      simp only [runCall, hf, hc, if_true]
      exact congrArg Dispatcher.catalog (ends_dropCall p c .cancelled).dispatcher
    | false =>
      obtain ⟨q, ht, -, -, -, hr⟩ := runCall_of_not_cancelled hf hc
      have hq : q.codec = p.codec := congrArg Tables.codec ht
      rw [hr, ← hq]
      split
      · exact catalog_settle q c _
      · rfl

theorem catalog_pollCall (p : Peer) (key : Nat) (m : CallMove) :
    (p.pollCall key m).codec.catalog = p.codec.catalog := by
  unfold pollCall
  split
  · exact catalog_runCall p key
  · cases m with
    | run => exact catalog_runCall p key
    | settle v =>
      simp only [moveCall]
      split
      · rfl
      · exact catalog_settle p _ v

theorem catalog_consume (p : Peer) (m : Message) :
    (p.consume m).codec.catalog = p.codec.catalog := by
  obtain ⟨ms, ts, ps, cs, k, ht, -⟩ := frame_consume p m
  exact congrArg (·.codec.catalog) ht

/-- The catalog of a peer is fixed. -/
theorem catalog_turn (p : Peer) (t : Turn) : (p.turn t).codec.catalog = p.codec.catalog := by
  cases t with
  | act a =>
    cases a with
    | request method params =>
      exact congrArg Dispatcher.catalog (dispatcher_request p method params)
    | cancel n => exact congrArg Dispatcher.catalog (dispatcher_cancel p n)
    | consume m => exact catalog_consume p m
    | abandon => exact congrArg Dispatcher.catalog (dispatcher_abandonPending p)
    | listen b => rfl
    | encode m =>
      change (p.codec.encode m).2.catalog = p.codec.catalog
      unfold Codec.encode
      split <;> rfl
    | call key m => exact catalog_pollCall p key m
  | reject i => exact congrArg Dispatcher.catalog (dispatcher_handleIssue p i)
  | openGate gate => exact congrArg Dispatcher.catalog (dispatcher_openGate p gate)
  | cancelCalls => exact congrArg Dispatcher.catalog (dispatcher_cancelAllCalls p)
  | release => exact congrArg Dispatcher.catalog (dispatcher_closeUnheld _)

end Peer

theorem Message.handed?_eq_some_iff {catalog : Catalog} {m : Message} {method : String}
    {params : Payload} :
    m.handed? catalog = some (method, params) ↔ m = .notification method params ∧
      method ≠ cancelMethod ∧ catalog.contains method = true := by
  cases m with
  | request | response => simp [handed?]
  | notification name ps =>
    rw [handed?]
    split
    next h =>
      rw [Option.some.injEq, Prod.mk.injEq, notification.injEq]
      constructor
      · rintro ⟨rfl, rfl⟩
        exact ⟨⟨rfl, rfl⟩, h⟩
      · exact fun h => h.1
    next h =>
      constructor
      · intro hn
        cases hn
      · rintro ⟨hm, hn⟩
        cases hm
        exact absurd hn h

theorem Message.handed?_eq_none_iff {catalog : Catalog} {method : String} {params : Payload} :
    (notification method params).handed? catalog = none ↔
      method = cancelMethod ∨ catalog.contains method = false := by
  by_cases hm : method = cancelMethod <;> simp [handed?, hm]

namespace Intake

variable {σ : Type} {r : Recipient σ} {s : Intake σ} {catalog : Catalog} {ms : List Message}
  {m : Message}

theorem route_of_handed {method : String} {params : Payload}
    (h : m.handed? s.peer.codec.catalog = some (method, params)) :
    s.route r m = { s with memory := r.call s.memory method params, serving := some method }.note
      (.called method params) := by
  obtain ⟨rfl, hm, hk⟩ := Message.handed?_eq_some_iff.mp h
  rw [route, handleNotification, Peer.handleOwnNotification?_eq_none_iff.mpr ⟨hm, hk⟩]

/-- The peer deals itself with a message that is not for the recipient. -/
theorem route_of_passed (h : m.handed? s.peer.codec.catalog = none) :
    s.route r m = { s with peer := s.peer.consume m } := by
  cases m with
  | request | response => rfl
  | notification method params =>
    rw [route, handleNotification, Peer.consume, Peer.handleNotification]
    cases hown : s.peer.handleOwnNotification? method params with
    | some peer => rfl
    | none =>
      obtain ⟨hm, hk⟩ := Peer.handleOwnNotification?_eq_none_iff.mp hown
      rcases Message.handed?_eq_none_iff.mp h with hc | hno
      · exact absurd hc hm
      · cases hk.symm.trans hno

theorem next_of_serving (h : s.serving ≠ none) : s.next r = s := by
  cases hs : s.serving with
  | none => exact absurd hs h
  | some method => simp only [next, hs]

theorem next_of_nil (h : s.inbox = []) : s.next r = s := by
  cases hs : s.serving <;> simp only [next, hs, h]

theorem next_of_cons (hs : s.serving = none) (hi : s.inbox = m :: ms) :
    s.next r = ({ s with inbox := ms }.note (.routed m)).route r m := by
  simp only [next, hs, hi]

theorem next_of_passed (hs : s.serving = none) (hi : s.inbox = m :: ms)
    (hm : m.handed? s.peer.codec.catalog = none) :
    s.next r = { s with inbox := ms, peer := s.peer.consume m }.note (.routed m) := by
  have hroute := route_of_passed (r := r) (s := { s with inbox := ms }.note (.routed m)) hm
  exact (next_of_cons hs hi).trans hroute

theorem next_of_handed {method : String} {params : Payload} (hs : s.serving = none)
    (hi : s.inbox = m :: ms) (hm : m.handed? s.peer.codec.catalog = some (method, params)) :
    s.next r =
      { ({ s with inbox := ms }.note (.routed m)) with
        memory := r.call s.memory method params
        serving := some method }.note (.called method params) := by
  have hroute := route_of_handed (r := r) (s := { s with inbox := ms }.note (.routed m)) hm
  exact (next_of_cons hs hi).trans hroute

theorem resume_of_none (hs : s.serving = none) : s.resume r = s := by
  simp only [resume, hs]

theorem resume_of_waiting {method : String} (hs : s.serving = some method)
    (h : (r.resume s.memory s.peer).2.2 = none) :
    s.resume r = { s with
      memory := (r.resume s.memory s.peer).1
      peer := (r.resume s.memory s.peer).2.1 } := by
  simp only [resume, hs, h]

theorem resume_of_verdict {method : String} {v : Verdict Unit} (hs : s.serving = some method)
    (h : (r.resume s.memory s.peer).2.2 = some v) :
    s.resume r = { s with
      memory := (r.resume s.memory s.peer).1
      peer := (r.resume s.memory s.peer).2.1.logVerdict method v
      serving := none }.note (.returned v) := by
  simp only [resume, hs, h]

theorem Sound.next (h : s.Sound catalog ms) (r : Recipient σ) : (s.next r).Sound catalog ms := by
  obtain ⟨hc, done, hms, hdone⟩ := h
  cases hs : s.serving with
  | some method =>
    have hne : s.serving ≠ none := by simp [hs]
    rw [next_of_serving hne]
    exact ⟨hc, done, hms, hdone⟩
  | none =>
    cases hi : s.inbox with
    | nil =>
      rw [next_of_nil hi]
      exact ⟨hc, done, hms, hdone⟩
    | cons m rest =>
      rw [hi, List.append_cons] at hms
      rw [hs] at hdone
      cases hm : m.handed? catalog with
      | none =>
        rw [next_of_passed hs hi (hc ▸ hm)]
        refine ⟨(Peer.catalog_consume _ m).trans hc, done ++ [m], hms, ?_⟩
        have passed := hdone.passed hm
        rwa [← hs] at passed
      | some called =>
        rw [next_of_handed hs hi (hc ▸ hm)]
        exact ⟨hc, done ++ [m], hms, hdone.called hm⟩

theorem Sound.resume (h : s.Sound catalog ms) (r : Recipient σ) :
    (s.resume r).Sound catalog ms := by
  obtain ⟨hc, done, hms, hdone⟩ := h
  cases hs : s.serving with
  | none =>
    rw [resume_of_none hs]
    exact ⟨hc, done, hms, hdone⟩
  | some method =>
    have hresume := (r.catalog_resume s.memory s.peer).trans hc
    cases hv : (r.resume s.memory s.peer).2.2 with
    | none =>
      rw [resume_of_waiting hs hv]
      exact ⟨hresume, done, hms, hdone⟩
    | some v =>
      rw [resume_of_verdict hs hv]
      rw [hs] at hdone
      have hlog := Peer.tables_logVerdict (r.resume s.memory s.peer).2.1 method v
      exact ⟨(congrArg (·.codec.catalog) hlog).trans hresume, done, hms, hdone.returned v⟩

theorem Sound.move (h : s.Sound catalog ms) (r : Recipient σ) (mv : Move) :
    (s.move r mv).Sound catalog ms := by
  cases mv with
  | next => exact h.next r
  | resume => exact h.resume r
  | turn t apart => exact ⟨(Peer.catalog_turn _ t).trans h.catalog_eq, h.attended⟩

theorem Sound.run (h : s.Sound catalog ms) (r : Recipient σ) (mvs : List Move) :
    (s.run r mvs).Sound catalog ms := by
  induction mvs generalizing s with
  | nil => exact h
  | cons mv mvs ih => exact ih (h.move r mv)

theorem Attended.called_eq {done : List Message} {serving : Option String} {es : List Entry}
    (h : Attended catalog done serving es) :
    es.filterMap Entry.called? = done.filterMap (·.handed? catalog) := by
  induction h with
  | start => rfl
  | passed before other ih => simp [ih, other, Entry.called?]
  | called before handed ih => simp [List.filterMap_cons, ih, handed, Entry.called?]
  | returned before v ih => simp [ih, Entry.called?]

theorem Attended.countP_isCall {done : List Message} {serving : Option String} {es : List Entry}
    (h : Attended catalog done serving es) :
    es.countP Entry.isCall = es.countP Entry.isReturn + if serving.isSome then 1 else 0 := by
  induction h with
  | start => rfl
  | passed before other ih => simpa [List.countP_append, Entry.isCall, Entry.isReturn] using ih
  | called before handed ih => simpa [List.countP_append, Entry.isCall, Entry.isReturn] using ih
  | returned before v ih => simpa [List.countP_append, Entry.isCall, Entry.isReturn] using ih

/-- No handling goes on when a message is routed. -/
theorem Attended.of_routed {done : List Message} {serving : Option String} {es before : List Entry}
    (h : Attended catalog done serving es) (hp : before ++ [.routed m] <+: es) :
    ∃ earlier, Attended catalog earlier none before := by
  induction h with
  | start => exact absurd (List.prefix_nil.mp hp) (by simp)
  | passed attended other ih =>
    rcases List.prefix_concat_iff.mp hp with heq | hp
    · exact ⟨_, (List.append_inj_left' heq rfl) ▸ attended⟩
    · exact ih hp
  | called attended handed ih =>
    -- the entry behind the last routing is the call, so the prefix ends before it
    rcases List.prefix_concat_iff.mp hp with heq | hp
    · exact nomatch List.append_inj_right' heq rfl
    · rcases List.prefix_concat_iff.mp hp with heq | hp
      · exact ⟨_, (List.append_inj_left' heq rfl) ▸ attended⟩
      · exact ih hp
  | returned attended v ih =>
    rcases List.prefix_concat_iff.mp hp with heq | hp
    · simp at heq
    · exact ih hp

theorem inbox_next (hs : s.serving = none) (hi : s.inbox = m :: ms) : (s.next r).inbox = ms := by
  cases hm : m.handed? s.peer.codec.catalog with
  | none =>
    rw [next_of_passed hs hi hm]
    rfl
  | some called =>
    rw [next_of_handed hs hi hm]
    rfl

theorem contained (r : Recipient σ) (s : Intake σ) : s.Contained r where
  goes_on hs m ms hi := inbox_next hs hi
  returns method v hs hv := by
    rw [resume_of_verdict hs hv]
    rfl
  next_quiet method params ms hi := by
    cases hs : s.serving with
    | some =>
      have hne : s.serving ≠ none := by simp [hs]
      rw [next_of_serving hne]
      exact ⟨rfl, rfl⟩
    | none =>
      cases hm : (Message.notification method params).handed? s.peer.codec.catalog with
      | none =>
        obtain ⟨f, -, -, ht⟩ := Peer.tables_handleNotification s.peer method params
        rw [next_of_passed hs hi hm]
        exact ⟨congrArg Tables.outgoing ht, congrArg Tables.pending ht⟩
      | some called =>
        rw [next_of_handed hs hi hm]
        exact ⟨rfl, rfl⟩
  resume_quiet method hs := by
    cases hv : (r.resume s.memory s.peer).2.2 with
    | none =>
      rw [resume_of_waiting hs hv]
      exact ⟨rfl, rfl⟩
    | some v =>
      have hlog := Peer.tables_logVerdict (r.resume s.memory s.peer).2.1 method v
      rw [resume_of_verdict hs hv]
      exact ⟨congrArg Tables.outgoing hlog, congrArg Tables.pending hlog⟩

/-- Its own service handles a notification as it does in the peer alone. -/
theorem resume_next_ofService {s : Intake (Option (String × Payload))} (hs : s.serving = none)
    (hi : s.inbox = m :: ms) :
    let u := (s.next .ofService).resume .ofService
    u.peer = s.peer.consume m ∧ u.inbox = ms ∧ u.serving = none := by
  intro u
  cases hm : m.handed? s.peer.codec.catalog with
  | none =>
    have hu : u = { s with inbox := ms, peer := s.peer.consume m }.note (.routed m) := by
      have hnext := next_of_passed (r := .ofService) hs hi hm
      have hserving : (s.next .ofService).serving = none := hnext ▸ hs
      exact (resume_of_none hserving).trans hnext
    rw [hu]
    exact ⟨rfl, rfl, hs⟩
  | some called =>
    obtain ⟨method, params⟩ := called
    obtain ⟨rfl, hne, hk⟩ := Message.handed?_eq_some_iff.mp hm
    have hnext := next_of_handed (r := .ofService) hs hi hm
    have hserving : (s.next .ofService).serving = some method := by
      rw [hnext]
      rfl
    have hverdict : (Recipient.ofService.resume (s.next .ofService).memory
        (s.next .ofService).peer).2.2 = some (s.peer.service.callNotification method params).2 := by
      rw [hnext]
      rfl
    have hu : u = _ := resume_of_verdict hserving hverdict
    rw [hnext] at hu
    rw [hu]
    exact ⟨(Peer.handleNotification_of_handed hne hk).symm, rfl, rfl⟩

theorem run_movesOf {s : Intake (Option (String × Payload))} {ts : List Turn}
    (hs : s.serving = none) (hi : s.inbox = ts.filterMap Turn.message?) :
    let u := s.run .ofService (movesOf ts)
    u.peer = s.peer.turns ts ∧ u.inbox = [] ∧ u.serving = none := by
  induction ts generalizing s with
  | nil => exact ⟨rfl, hi, hs⟩
  | cons t ts ih =>
    rw [movesOf]
    split
    next m ht =>
      rw [List.filterMap_cons_some ht] at hi
      obtain ⟨hpeer, hinbox, hserving⟩ := resume_next_ofService hs hi
      have hrest := ih hserving hinbox
      rw [hpeer] at hrest
      rw [Turn.eq_of_message?_eq_some ht]
      exact hrest
    next ht =>
      rw [List.filterMap_cons_none ht] at hi
      exact ih (s := { s with peer := s.peer.turn t }) hs hi

/-- Whatever their recipient does, and whatever else happens to a peer, its recipient is called for
the notifications of a known method other than the cancellation, for each of them once, with its
parameters and in the order of arrival, and each call has returned before the next message is
routed. All that is written or done to waiting requests when a notification is handled is done by
the recipient. A peer alone handles its notifications in this way. -/
theorem notifications_handled_in_order {σ : Type} (r : Recipient σ) (memory : σ) (p : Peer)
    (ms : List Message) (mvs : List Move) :
    let s := Intake.run r { peer := p, memory, inbox := ms } mvs
    (∃ done, ms = done ++ s.inbox ∧ Attended p.codec.catalog done s.serving s.trace ∧
      s.trace.filterMap Entry.called? = done.filterMap (·.handed? p.codec.catalog) ∧
      ∀ before m, before ++ [.routed m] <+: s.trace →
        before.countP Entry.isCall = before.countP Entry.isReturn) ∧
    s.Contained r ∧
    ∀ ts : List Turn,
      let u := Intake.run .ofService
        { peer := p, memory := none, inbox := ts.filterMap Turn.message? } (movesOf ts)
      u.peer = p.turns ts ∧ u.inbox = [] ∧ u.serving = none := by
  intro s
  have start : Sound p.codec.catalog ms { peer := p, memory, inbox := ms } := ⟨rfl, [], rfl, .start⟩
  obtain ⟨-, done, hms, hdone⟩ := start.run r mvs
  refine ⟨⟨done, hms, hdone, hdone.called_eq, fun before m hp => ?_⟩, contained r s,
    fun ts => run_movesOf rfl rfl⟩
  obtain ⟨earlier, hearlier⟩ := hdone.of_routed hp
  exact hearlier.countP_isCall

/-- A recipient that returns, fails and panics as its list says. -/
def scripted : Recipient (List (Verdict Unit)) where
  call script _ _ := script
  resume script p := (script.tail, p, some (script.headD (.value ())))
  catalog_resume _ _ := rfl

/-- The first notification ends in a panic, and the recipient is called again. -/
theorem notifications_handled_in_order_panic :
    let p : Peer :=
      { codec := ⟨.base, ⟨[⟨"note", .notification, .unit, none⟩]⟩, 1⟩, service := .empty "" }
    let ms : List Message :=
      [.notification "note" .absent, .cancellation (.number 7),
        .notification "note" (.json (.int 2))]
    let s := run scripted { peer := p, memory := [.panic none], inbox := ms }
      [.next, .resume, .next, .next]
    let before : List Entry :=
      [.routed (.notification "note" .absent), .called "note" .absent, .returned (.panic none),
        .routed (.cancellation (.number 7))]
    s.trace.filterMap Entry.called? = [("note", .absent), ("note", .json (.int 2))] ∧
      before ++ [.routed (.notification "note" (.json (.int 2)))] <+: s.trace ∧
      before.countP Entry.isCall = before.countP Entry.isReturn ∧ s.Contained scripted := by
  intro p ms s before
  obtain ⟨⟨done, hms, -, hcalled, hbefore⟩, hcontained, -⟩ :=
    notifications_handled_in_order scripted [.panic none] p ms [.next, .resume, .next, .next]
  have hinbox : s.inbox = [] := rfl
  have hprefix : before ++ [.routed (.notification "note" (.json (.int 2)))] <+: s.trace :=
    ⟨[.called "note" (.json (.int 2))], rfl⟩
  have hdone : ms = done := by
    rw [hinbox, List.append_nil] at hms
    exact hms
  have hcalls : ms.filterMap (·.handed? p.codec.catalog) =
      [("note", .absent), ("note", .json (.int 2))] := rfl
  rw [← hdone, hcalls] at hcalled
  have hcount := hbefore before _ hprefix
  exact ⟨hcalled, hprefix, hcount, hcontained⟩

end Intake
end RpcPeer
