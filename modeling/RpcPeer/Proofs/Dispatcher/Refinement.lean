import RpcPeer.Proofs.Dispatcher.Machine

/-! The dispatcher of a peer goes through every turn by itself. -/
namespace RpcPeer

namespace Peer

/-- Polls a call in one step. Its handler does what the move says, unless the call is cancelled. -/
def pollCall (p : Peer) (key : Nat) (m : CallMove) : Peer :=
  if p.calls.any fun c => c.key == key && c.cancelled then p.runCall key else p.moveCall key m

def turn (p : Peer) : Turn → Peer
  | .act (.call key m) => p.pollCall key m
  | .act a => p.act a
  | .reject i => p.handleIssue i
  | .openGate gate => p.openGate gate
  | .cancelCalls => p.cancelAllCalls
  | .release => p.release

def turns (p : Peer) (ts : List Turn) : Peer := ts.foldl turn p

def dispatcher (p : Peer) : Dispatcher where
  surroundings := ⟨p.service, p.policy, p.opened, p.listening⟩
  catalog := p.codec.catalog
  calls := p.calls
  nextKey := p.nextKey

variable {p : Peer}

@[simp] theorem dispatcher_log (p : Peer) (l : Level) (s : String) :
    (p.log l s).dispatcher = p.dispatcher := rfl

@[simp] theorem dispatcher_writeAll (p : Peer) (es : List LogEntry) :
    (p.writeAll es).dispatcher = p.dispatcher := by
  induction es generalizing p with
  | nil => rfl
  | cons e es ih => exact ih (p.write e)

theorem dispatcher_post {m : Message} {q : Peer} (h : p.post m = .ok q) :
    q.dispatcher = p.dispatcher := by
  unfold post at h
  split at h
  next => exact Except.ok.inj h ▸ rfl
  next => cases h

@[simp] theorem dispatcher_send (p : Peer) (m : Message) :
    (p.send m).dispatcher = p.dispatcher := by
  unfold send
  split
  next q h => exact dispatcher_post h
  next => rfl

@[simp] theorem dispatcher_respond (p : Peer) (id : MessageId) (method : String) (o : Outcome) :
    (p.respond id method o).dispatcher = p.dispatcher := dispatcher_send ..

@[simp] theorem dispatcher_dropPending (p : Peer) (id : MessageId) :
    (p.dropPending id).dispatcher = p.dispatcher := by
  unfold dropPending
  split <;> rfl

@[simp] theorem dispatcher_request (p : Peer) (method : String) (params : Payload) :
    (p.request method params).2.dispatcher = p.dispatcher := by
  unfold request
  simp only
  split
  next q h => exact (dispatcher_post h : q.dispatcher = _)
  next => exact dispatcher_dropPending _ _

@[simp] theorem dispatcher_runAction (p : Peer) (a : CancelAction) :
    (p.runAction a).dispatcher = p.dispatcher := by
  cases a with
  | cancelRequest id =>
    unfold runAction
    simp only
    split
    · rfl
    · split
      next q h => exact (dispatcher_post h).trans (dispatcher_dropPending _ _)
      next => exact dispatcher_dropPending _ _
  | custom r => cases r <;> rfl

@[simp] theorem dispatcher_cancel (p : Peer) (n : Node) :
    (p.cancel n).dispatcher = p.dispatcher := by
  have hs : (p.sendCancel n.ticket).2.dispatcher = p.dispatcher := by
    unfold sendCancel
    simp only
    split
    · rfl
    · split
      · rfl
      · exact dispatcher_runAction _ _
  exact hs

@[simp] theorem dispatcher_abandonPending (p : Peer) :
    p.abandonPending.dispatcher = p.dispatcher := by
  have hall : ∀ q : Peer, (p.pending.foldl giveUp q).dispatcher = q.dispatcher := fun q =>
    List.foldlRecOn (motive := fun x : Peer => x.dispatcher = q.dispatcher) p.pending giveUp rfl
      fun x hx r _ => (dispatcher_dropPending x r.id).trans hx
  unfold abandonPending
  simp only
  split
  · exact hall p
  · exact hall (p.log _ _)

@[simp] theorem dispatcher_handleResponse (p : Peer) (id : Option MessageId) (o : Outcome) :
    (p.handleResponse id o).dispatcher = p.dispatcher := by
  unfold handleResponse
  split
  · split <;> rfl
  · split
    · rfl
    · cases o with
      | result | error =>
        dsimp only
        split <;> rfl

@[simp] theorem dispatcher_handleIssue (p : Peer) (i : Issue) :
    (p.handleIssue i).dispatcher = p.dispatcher := by
  unfold handleIssue
  split
  · exact dispatcher_send _ _
  · rfl

@[simp] theorem dispatcher_closeUnheld (p : Peer) : p.closeUnheld.dispatcher = p.dispatcher := by
  unfold closeUnheld
  split
  · rfl
  · exact List.foldlRecOn (motive := fun q : Peer => q.dispatcher = p.dispatcher) p.pending _ rfl
      fun q hq r _ => (dispatcher_dropPending q r.id).trans hq

@[simp] theorem outgoing_closeUnheld (p : Peer) : p.closeUnheld.outgoing = p.outgoing := by
  have hdrop : ∀ (q : Peer) (id : MessageId), (q.dropPending id).outgoing = q.outgoing := by
    intro q id
    unfold dropPending
    split <;> rfl
  unfold closeUnheld
  split
  · rfl
  · exact List.foldlRecOn (motive := fun q : Peer => q.outgoing = p.outgoing) p.pending _ rfl
      fun q hq r _ => (hdrop q r.id).trans hq

end Peer

def Dispatcher.without (d : Dispatcher) (key : Nat) : Dispatcher :=
  { d with calls := d.calls.filter (·.key != key) }

namespace Peer

variable {p : Peer}

/-- A call ends with what its ending says, and is no longer in flight. -/
structure Ends (p q : Peer) (c : Call) (e : Ending) : Prop where
  dispatcher : q.dispatcher = p.dispatcher.without c.key
  outgoing : q.outgoing = p.outgoing ++ (CallState.ended e p.listening).responses c

theorem Ends.of_eq {q r : Peer} {c : Call} {e : Ending} (h : q.Ends r c e)
    (hd : q.dispatcher = p.dispatcher) (ho : q.outgoing = p.outgoing) : p.Ends r c e := by
  have hl : q.listening = p.listening := congrArg (·.surroundings.listening) hd
  exact ⟨hd ▸ h.dispatcher, hl ▸ ho ▸ h.outgoing⟩

theorem ends_dropCall (p : Peer) (c : Call) (s : Silence) :
    p.Ends (p.dropCall c) c (.silent s) where
  dispatcher := dispatcher_closeUnheld _
  outgoing := by
    refine (outgoing_closeUnheld _).trans ?_
    cases hl : p.listening <;> simp [CallState.responses, Ending.responses] <;> rfl

theorem ends_respond (p : Peer) (c : Call) (log : List LogEntry) (o : Outcome) :
    p.Ends (((p.removeCall c.key).writeAll log).respond c.id c.method o).closeUnheld c
      (.answered o) where
  dispatcher := by
    rw [dispatcher_closeUnheld, dispatcher_respond, dispatcher_writeAll]
    rfl
  outgoing := by
    have ht : (((p.removeCall c.key).writeAll log).respond c.id c.method o).tables =
        p.tables.finish c (.answered o) := by
      rw [tables_respond, tables_writeAll]
      rfl
    exact (outgoing_closeUnheld _).trans (congrArg Tables.outgoing ht)

theorem ends_settle (p : Peer) (c : Call) (v : Verdict Payload) :
    p.Ends (p.settle c v) c (c.ending p.policy v) := by
  cases v with
  | value v => exact ends_respond p c [] _
  | fault f =>
    cases f with
    | cancelled => exact ends_dropCall p c _
    | methodNotFound | invalidParams | response | other => exact ends_respond p c _ _
  | panic text => exact ends_respond p c _ _

theorem dispatcher_of_tables {q : Peer} (ht : q.tables = p.tables) (hs : q.service = p.service)
    (hp : q.policy = p.policy) (ho : q.opened = p.opened) : q.dispatcher = p.dispatcher := by
  have hc : q.codec = p.codec := congrArg Tables.codec ht
  have hl : q.listening = p.listening := congrArg Tables.listening ht
  have hcalls : q.calls = p.calls := congrArg Tables.calls ht
  have hk : q.nextKey = p.nextKey := congrArg Tables.nextKey ht
  rw [dispatcher, hs, hp, ho, hc, hl, hcalls, hk]
  rfl

/-- A call goes on waiting, as another call of its identity. -/
structure Waits (p q : Peer) (key : Nat) (d : Call) : Prop where
  dispatcher : q.dispatcher = p.dispatcher.mapCalls fun c => if c.key = key then d else c
  outgoing : q.outgoing = p.outgoing

theorem pollCall_of_none {key : Nat} (h : ∀ c ∈ p.calls, c.key ≠ key) (m : CallMove) :
    p.pollCall key m = p := by
  have hf : p.calls.find? (·.key == key) = none := by simpa using h
  have ha : (p.calls.any fun c => c.key == key && c.cancelled) = false := by
    rw [List.any_eq_false]
    intro c hc
    simp [h c hc]
  rw [pollCall, if_neg (by simp [ha])]
  cases m <;> simp [moveCall, runCall, hf]

theorem find?_of_mem (h : p.dispatcher.Orderly) {c : Call} (hc : c ∈ p.calls) :
    p.calls.find? (·.key == c.key) = some c := by
  cases hf : p.calls.find? (·.key == c.key) with
  | none => exact absurd (List.find?_eq_none.mp hf c hc) (by simp)
  | some d =>
    have hk : d.key = c.key := by simpa using List.find?_some hf
    rw [h.eq_of_key (List.mem_of_find?_eq_some hf) hc hk]

theorem pollCall_of_cancelled (h : p.dispatcher.Orderly) {c : Call} (hc : c ∈ p.calls)
    (hx : c.cancelled = true) (m : CallMove) : p.pollCall c.key m = p.dropCall c := by
  have ha : (p.calls.any fun d => d.key == c.key && d.cancelled) = true :=
    List.any_eq_true.mpr ⟨c, hc, by simp [hx]⟩
  rw [pollCall, if_pos ha]
  simp only [runCall, find?_of_mem h hc, hx, if_true]

theorem pollCall_of_not_cancelled (h : p.dispatcher.Orderly) {c : Call} (hc : c ∈ p.calls)
    (hx : c.cancelled = false) (m : CallMove) : p.pollCall c.key m = p.moveCall c.key m := by
  have ha : (p.calls.any fun d => d.key == c.key && d.cancelled) = false := by
    rw [List.any_eq_false]
    intro d hd
    by_cases hk : d.key = c.key
    · simp [h.eq_of_key hd hc hk, hx]
    · simp [hk]
  rw [pollCall, if_neg (by simp [ha])]

theorem waits_modifyCall (h : p.dispatcher.Orderly) {c : Call} (hc : c ∈ p.calls) {q : Peer}
    (hd : q.dispatcher = p.dispatcher) (ho : q.outgoing = p.outgoing) (a : Activity) :
    p.Waits (q.modifyCall c.key ({ · with activity := some a })) c.key
      { c with activity := some a } := by
  have hcalls : q.calls = p.calls := congrArg Dispatcher.calls hd
  refine ⟨?_, ho⟩
  rw [← hd]
  refine Dispatcher.mapCalls_congr (d := q.dispatcher) fun d hm => ?_
  have hm : d ∈ p.calls := hcalls ▸ hm
  by_cases hk : d.key = c.key
  · simp [h.eq_of_key hm hc hk]
  · simp [hk]

/-- A step from `p` to `q` brings a call where it then stands. -/
def Brings (p q : Peer) (c : Call) : CallState → Prop
  | .inFlight d => p.Waits q c.key d
  | .ended e heard => heard = p.listening ∧ p.Ends q c e

theorem brings_pollCall (h : p.dispatcher.Orderly) {c : Call} (hc : c ∈ p.calls) (m : CallMove) :
    p.Brings (p.pollCall c.key m) c (c.poll p.dispatcher.surroundings m) := by
  cases hx : c.cancelled with
  | true =>
    rw [pollCall_of_cancelled h hc hx, Call.poll_of_cancelled _ hx]
    exact ⟨rfl, ends_dropCall p c _⟩
  | false =>
    rw [pollCall_of_not_cancelled h hc hx]
    cases m with
    | settle v =>
      rw [Call.poll_settle _ hx]
      simp only [moveCall, find?_of_mem h hc]
      exact ⟨rfl, ends_settle p c v⟩
    | run =>
      obtain ⟨q, hqt, hqp, hqs, hqo, hr⟩ := runCall_of_not_cancelled (find?_of_mem h hc) hx
      have hqd : q.dispatcher = p.dispatcher := dispatcher_of_tables hqt hqs hqp hqo
      have hq : q.outgoing = p.outgoing := congrArg Tables.outgoing hqt
      have ha : c.activity.getD (p.service.callRequest c.method c.params).2 = p.activityOf c := rfl
      rw [moveCall, hr, Call.poll_run _ hx]
      dsimp only [dispatcher]
      rw [ha]
      cases (p.activityOf c).resume false p.opened with
      | done v => exact ⟨rfl, hqp ▸ (ends_settle q c v).of_eq hqd hq⟩
      | untilCancelled | untilOpen => exact waits_modifyCall h hc hqd hq _

theorem cancelServed_of_mem (h : p.dispatcher.Orderly) {c : Call} (hc : c ∈ p.calls) :
    p.cancelServed c.id =
      (p.log .debug s!"Remote cancelled request {c.id.display}").cancelCall c.key := by
  unfold cancelServed
  split
  next d hf =>
    have hi : d.id = c.id := by simpa using List.find?_some hf
    rw [h.eq_of_id (List.mem_of_find?_eq_some hf) hc hi]
  next hf => exact absurd (List.find?_eq_none.mp hf c hc) (by simp)

theorem cancelServed_of_notMem {id : MessageId} (h : ∀ c ∈ p.calls, c.id ≠ id) :
    p.cancelServed id =
      p.log .debug s!"Cancellation for unknown or finished request {id.display}" := by
  have hf : p.calls.find? (·.id == id) = none := by simpa using h
  rw [cancelServed, hf]

theorem dispatcher_cancelServed (h : p.dispatcher.Orderly) (id : MessageId) :
    (p.cancelServed id).dispatcher =
      p.dispatcher.mapCalls fun c => if id = c.id then c.cancel else c := by
  by_cases hc : ∃ c ∈ p.calls, c.id = id
  · obtain ⟨c, hc, rfl⟩ := hc
    rw [cancelServed_of_mem h hc]
    refine Dispatcher.mapCalls_congr (d := p.dispatcher) fun d hd => ?_
    by_cases hk : d.key = c.key
    · rw [h.eq_of_key hd hc hk, if_pos rfl]
      exact if_pos (beq_self_eq_true _)
    · have hi : ¬ c.id = d.id := fun hi => hk (congrArg Call.key (h.eq_of_id hd hc hi.symm))
      rw [if_neg hi]
      exact if_neg (by simpa using hk)
  · have hno : ∀ c ∈ p.calls, c.id ≠ id := fun c hm hi => hc ⟨c, hm, hi⟩
    rw [cancelServed_of_notMem hno, dispatcher_log, Dispatcher.mapCalls_eq_self]
    exact fun c hm => if_neg fun hi => hno c hm hi.symm

theorem handleNotification_of_cancel {params : Payload} {id : MessageId}
    (h : CancelParams.decode params = .ok id) :
    p.handleNotification Message.cancelMethod params = p.cancelServed id :=
  handleNotification_of_own (by rw [handleOwnNotification?_cancel, h])

theorem handleNotification_of_malformed {params : Payload} {e : DataError}
    (h : CancelParams.decode params = .error e) :
    p.handleNotification Message.cancelMethod params =
      p.log .warn s!"Ignoring malformed cancellation: {e.message}" :=
  handleNotification_of_own (by rw [handleOwnNotification?_cancel, h])

theorem dispatcher_handleNotification_of_ne {method : String} (h : method ≠ Message.cancelMethod)
    (params : Payload) : (p.handleNotification method params).dispatcher = p.dispatcher := by
  obtain ⟨_, hm, -⟩ | ⟨e, hp⟩ | hp := handleNotification_cases p method params
  · exact absurd hm h
  · rw [hp]
    rfl
  · rw [hp]
    rcases p.service.callNotification method params with ⟨_ | _, _ | _ | _⟩ <;> rfl

theorem handleRequest_of_unknown {method : String} (h : p.codec.catalog.contains method = false)
    (id : MessageId) (params : Payload) :
    p.handleRequest id method params =
      (p.log .warn s!"Unsupported request method: {method}").respond id method
        (.error (.ofCode .methodNotFound s!"Unsupported request method: {method}")) := by
  simp [handleRequest, h]

theorem handleRequest_of_used {method : String} (h : p.codec.catalog.contains method = true)
    {c : Call} (hc : c ∈ p.calls) (params : Payload) :
    p.handleRequest c.id method params =
      p.respond c.id method
        (.error (.ofCode .invalidRequest s!"Request id {c.id.display} is already in use")) := by
  have hu : (p.calls.any fun d => d.id == c.id) = true := List.any_eq_true.mpr ⟨c, hc, by simp⟩
  simp [handleRequest, h, hu]

theorem handleRequest_of_free {method : String} (h : p.codec.catalog.contains method = true)
    {id : MessageId} (hid : ∀ c ∈ p.calls, c.id ≠ id) (params : Payload) :
    p.handleRequest id method params =
      { p with
        calls := p.calls ++ [p.dispatcher.newCall id method params]
        nextKey := p.nextKey + 1 }.wake (.call p.nextKey) := by
  have hu : (p.calls.any (·.id == id)) = false := by simpa using hid
  simp only [handleRequest, h, hu]
  rfl

theorem dispatcher_handleRequest (p : Peer) (id : MessageId) (method : String) (params : Payload) :
    (p.handleRequest id method params).dispatcher =
      p.dispatcher.turn (.act (.consume (.request id method params))) := by
  have hquiet : ∀ c ∈ p.dispatcher.calls, c.turn p.dispatcher.surroundings
      (.act (.consume (.request id method params))) = .inFlight c := fun _ _ => rfl
  cases hk : p.codec.catalog.contains method with
  | false =>
    rw [handleRequest_of_unknown hk, dispatcher_respond, dispatcher_log,
      Dispatcher.turn_of_quiet hquiet (by simp [Dispatcher.admitted, dispatcher, hk])]
    rfl
  | true =>
    by_cases hu : ∃ c ∈ p.calls, c.id = id
    · obtain ⟨c, hc, rfl⟩ := hu
      have ha : p.dispatcher.admitted (.act (.consume (.request c.id method params))) = [] :=
        if_neg fun hf => absurd rfl ((by simpa [dispatcher, hk] using hf :
          ∀ d ∈ p.calls, d.id ≠ c.id) c hc)
      rw [handleRequest_of_used hk hc, dispatcher_respond, Dispatcher.turn_of_quiet hquiet ha]
      rfl
    · have hfree : ∀ c ∈ p.calls, c.id ≠ id := fun c hc hi => hu ⟨c, hc, hi⟩
      have ha := Dispatcher.admitted_of_free (d := p.dispatcher) hk hfree params
      have hcalls : p.calls.filterMap (fun c => (c.turn p.dispatcher.surroundings
          (.act (.consume (.request id method params)))).inFlight?) = p.calls :=
        List.filterMap_some
      rw [handleRequest_of_free hk hfree, Dispatcher.turn, ha]
      exact congrArg (fun cs => { p.dispatcher with
        calls := cs ++ [p.dispatcher.newCall id method params], nextKey := p.nextKey + 1 })
        hcalls.symm

theorem dispatcher_handleNotification (h : p.dispatcher.Orderly) (method : String)
    (params : Payload) :
    (p.handleNotification method params).dispatcher = p.dispatcher.mapCalls fun c =>
      if (Message.notification method params).cancels c.id then c.cancel else c := by
  by_cases hm : method = Message.cancelMethod
  · subst hm
    cases hd : CancelParams.decode params with
    | ok i =>
      rw [handleNotification_of_cancel hd, dispatcher_cancelServed h]
      simp [Message.cancels, hd]
    | error e =>
      rw [handleNotification_of_malformed hd, dispatcher_log, Dispatcher.mapCalls_eq_self]
      simp [Message.cancels, hd]
  · rw [dispatcher_handleNotification_of_ne hm, Dispatcher.mapCalls_eq_self]
    simp [Message.cancels, hm]

theorem dispatcher_consume (h : p.dispatcher.Orderly) (m : Message) :
    (p.consume m).dispatcher = p.dispatcher.turn (.act (.consume m)) := by
  cases m with
  | request id method params => exact dispatcher_handleRequest p id method params
  | response id method o =>
    rw [Dispatcher.turn_of_quiet (fun c _ => rfl) rfl]
    exact dispatcher_handleResponse p id o
  | notification method params =>
    rw [Dispatcher.turn_of_map (fun c _ => rfl) rfl]
    exact dispatcher_handleNotification h method params

theorem dispatcher_cancelAllCalls (p : Peer) :
    p.cancelAllCalls.dispatcher = p.dispatcher.mapCalls Call.cancel := by
  have hall : ∀ (cs : List Call) (q : Peer),
      (cs.foldl (fun q c => q.cancelCall c.key) q).dispatcher =
        q.dispatcher.mapCalls fun c => if cs.any (·.key == c.key) then c.cancel else c := by
    intro cs
    induction cs with
    | nil => exact fun q => (Dispatcher.mapCalls_eq_self fun c _ => rfl).symm
    | cons b cs ih =>
      intro q
      have hb : (q.cancelCall b.key).dispatcher =
          q.dispatcher.mapCalls fun c => if c.key == b.key then c.cancel else c := rfl
      rw [List.foldl_cons, ih, hb, Dispatcher.mapCalls_mapCalls]
      refine Dispatcher.mapCalls_congr fun c _ => ?_
      by_cases hk : c.key = b.key
      · simp [hk, Call.cancel]
      · simp [hk, Ne.symm hk]
  rw [cancelAllCalls, hall]
  exact Dispatcher.mapCalls_congr fun c hc => if_pos (List.any_eq_true.mpr ⟨c, hc, by simp⟩)

@[simp] theorem dispatcher_openGate (p : Peer) (gate : String) :
    (p.openGate gate).dispatcher =
      { p.dispatcher with surroundings := p.dispatcher.surroundings.turn (.openGate gate) } :=
  List.foldlRecOn (motive := fun q : Peer => q.dispatcher =
      { p.dispatcher with surroundings := p.dispatcher.surroundings.turn (.openGate gate) })
    _ _ rfl fun _ hq _ _ => hq

/-- A poll puts the call with its key where `Call.poll` says and no other call anywhere. -/
theorem dispatcher_pollCall (h : p.dispatcher.Orderly) (key : Nat) (m : CallMove) :
    (p.pollCall key m).dispatcher = p.dispatcher.turn (.act (.call key m)) := by
  by_cases hex : ∃ c ∈ p.calls, c.key = key
  · obtain ⟨c, hc, rfl⟩ := hex
    have hspec := brings_pollCall h hc m
    have hturn : ∀ x ∈ p.calls, x.turn p.dispatcher.surroundings (.act (.call c.key m)) =
        if x.key = c.key then c.poll p.dispatcher.surroundings m else .inFlight x := by
      intro x hx
      by_cases hk : x.key = c.key
      · rw [h.eq_of_key hx hc hk, Call.turn_call_self, if_pos rfl]
      · rw [Call.turn_call_of_ne _ hk, if_neg hk]
    cases hpoll : c.poll p.dispatcher.surroundings m with
    | ended e heard =>
      rw [hpoll] at hspec hturn
      have hcalls : p.calls.filterMap
          (fun x => (x.turn p.dispatcher.surroundings (.act (.call c.key m))).inFlight?) =
            p.calls.filter (·.key != c.key) := by
        rw [← List.filterMap_eq_filter]
        refine List.filterMap_congr fun x hx => ?_
        rw [hturn x hx]
        by_cases hk : x.key = c.key <;> simp [hk, CallState.inFlight?, Option.guard]
      rw [hspec.2.dispatcher, Dispatcher.turn, show p.dispatcher.calls = p.calls from rfl, hcalls]
      simp [Dispatcher.without, Dispatcher.admitted, Surroundings.turn, dispatcher]
    | inFlight d =>
      rw [hpoll] at hspec hturn
      have hmap : ∀ x ∈ p.calls, x.turn p.dispatcher.surroundings (.act (.call c.key m)) =
          .inFlight (if x.key = c.key then d else x) := by
        intro x hx
        rw [hturn x hx]
        split <;> rfl
      rw [hspec.dispatcher, Dispatcher.turn_of_map hmap rfl]
      rfl
  · have hno : ∀ c ∈ p.calls, c.key ≠ key := fun c hc hk => hex ⟨c, hc, hk⟩
    rw [pollCall_of_none hno,
      Dispatcher.turn_of_quiet (fun c hc => Call.turn_call_of_ne _ (hno c hc) m) rfl]
    rfl

/-- The dispatcher of a peer goes through the turns by itself. -/
theorem dispatcher_turn (h : p.dispatcher.Orderly) (t : Turn) :
    (p.turn t).dispatcher = p.dispatcher.turn t := by
  cases t with
  | act a =>
    cases a with
    | request method params =>
      rw [Dispatcher.turn_of_quiet (fun c _ => rfl) rfl]
      exact dispatcher_request ..
    | cancel n =>
      rw [Dispatcher.turn_of_quiet (fun c _ => rfl) rfl]
      exact dispatcher_cancel ..
    | consume m => exact dispatcher_consume h m
    | abandon =>
      rw [Dispatcher.turn_of_quiet (fun c _ => rfl) rfl]
      exact dispatcher_abandonPending p
    | listen b => rw [Dispatcher.turn_of_quiet (fun c _ => rfl) rfl]; rfl
    | encode m =>
      rw [Dispatcher.turn_of_quiet (fun c _ => rfl) rfl]
      have hc : (p.codec.encode m).2.catalog = p.codec.catalog := by
        unfold Codec.encode
        split <;> rfl
      exact congrArg (fun c => { p.dispatcher with catalog := c }) hc
    | call key m => exact dispatcher_pollCall h key m
  | reject i =>
    rw [Dispatcher.turn_of_quiet (fun c _ => rfl) rfl]
    exact dispatcher_handleIssue p i
  | openGate gate =>
    rw [Dispatcher.turn_of_quiet (fun c _ => rfl) rfl]
    exact dispatcher_openGate p gate
  | cancelCalls =>
    rw [Dispatcher.turn_of_map (fun c _ => rfl) rfl]
    exact dispatcher_cancelAllCalls p
  | release =>
    rw [Dispatcher.turn_of_quiet (fun c _ => rfl) rfl]
    exact dispatcher_closeUnheld _

end Peer
end RpcPeer
