import RpcPeer.Proofs.Peer.Ledger
import RpcPeer.Proofs.Peer.Acts

/-! One direction of a connection: requests of one peer that the other serves. -/
namespace RpcPeer

inductive Side
  | left
  | right
  deriving DecidableEq

def Side.other : Side → Side
  | left => right
  | right => left

/-- The request that the peer of a side has sent on a ticket. -/
abbrev Origin := Side × Nat

/-- A response that has completed the request of a ticket, with its cause. -/
structure Completion where
  ticket : Nat
  cause : Option Origin
  message : Message

def Message.isRequest : Message → Bool
  | request .. => true
  | _ => false

def Message.reply? : Message → Option (Except ResponseError Payload)
  | response _ _ o => some o.reply
  | _ => none

/-- The requests of an origin that have been sent and not taken yet. -/
def Ledger.asked (l : Ledger Origin) (k : Origin) : Nat :=
  l.queue.countP fun e => e.1 = some k && e.2.isRequest

/-- The ticket of the request that a message completes. -/
def Peer.completes? (p : Peer) : Message → Option Nat
  | .response (some id) _ _ => (p.pending.find? (·.id == id)).map (·.ticket)
  | _ => none

/-- The request of a ticket has been cancelled, as the history `C` knows, and is closed. -/
structure Stopped (ids : List MessageId) (C : Nat → Prop) (a : Ledger Origin) (t : Nat) :
    Prop where
  sent : t < ids.length
  cancelled : C t
  closed : a.peer.tables.openId? t = none

/-- A message on its way to the peer that serves: a request under the id of its ticket, or the
cancellation of one that has been stopped. -/
inductive Forward (s : Side) (ids : List MessageId) (C : Nat → Prop) (a : Ledger Origin) :
    Option Origin × Message → Prop
  | request {t : Nat} {id : MessageId} (method : String) (params : Payload)
      (h : ids[t]? = some id) : Forward s ids C a (some (s, t), .request id method params)
  | cancellation {t : Nat} {id : MessageId} (h : ids[t]? = some id) (hs : Stopped ids C a t) :
      Forward s ids C a (some (s, t), .cancellation id)

/-- The peer of `a`, on the side `s`, has sent requests under `ids`, and the peer of `b` serves
them. Each request is in one place: on its way, refused or answered, in flight, or silenced. -/
structure Link (s : Side) (ids : List MessageId) (C : Nat → Prop) (a b : Ledger Origin) :
    Prop where
  coherent : a.peer.tables.Coherent ids
  sound : b.Sound (fun k id _ => k.1 = s ∧ ids[k.2]? = some id)
    fun k => k.1 = s ∧ Stopped ids C a k.2
  forward : ∀ e ∈ a.queue, e.2.isResponse = false → Forward s ids C a e
  taken : ∀ e ∈ b.taken, e.2.isResponse → ∀ t, e.1 = some (s, t) →
    a.peer.tables.openId? t = none
  balance : ∀ t, a.asked (s, t) + b.account (s, t) = if t < ids.length then 1 else 0

/-- Each of these responses was written for the request that it has completed, and brought the reply
that has arrived there. -/
structure Completes (s : Side) (a b : Ledger Origin) (completed : List Completion) : Prop where
  caused : ∀ d ∈ completed, d.cause = some (s, d.ticket) ∧ d.message.isResponse ∧
    (d.cause, d.message) ∈ b.taken
  once : (completed.map (·.ticket)).Nodup
  arrived : ∀ t r, a.peer.tables.arrived? t = some r ↔
    ∃ d ∈ completed, d.ticket = t ∧ d.message.reply? = some r

variable {s : Side} {ids : List MessageId} {C C' : Nat → Prop} {a a' b b' : Ledger Origin}

theorem Forward.mono {ids' : List MessageId} {e : Option Origin × Message}
    (h : Forward s ids C a e) (hids : ∀ (t : Nat) id, ids[t]? = some id → ids'[t]? = some id)
    (hs : ∀ t, Stopped ids C a t → Stopped ids' C' a' t) : Forward s ids' C' a' e := by
  cases h with
  | request method params hi => exact .request method params (hids _ _ hi)
  | cancellation hi ht => exact .cancellation (hids _ _ hi) (hs _ ht)

namespace Link

theorem start {p q : Peer} (hp : p.Fresh) (hq : q.Fresh) (hl : q.listening = true) :
    Link s [] C { peer := p } { peer := q } where
  coherent := hp.coherent
  sound := .start hq.outgoing hq.calls hq.owned hl
  forward := by simp
  taken := by simp
  balance := by
    simp [Ledger.asked, Ledger.account, Ledger.responses, Ledger.inFlight, Ledger.silences,
      hq.calls]

/-- The caller's requests stay as they are or are closed, and all that it sends in this direction
are cancellations. -/
theorem caller (h : Link s ids C a b) {ends : Nat → MessageId → Bool}
    (hc : Tables.Closes a.peer.tables a'.peer.tables ends) (hC : ∀ t, C t → C' t)
    (hqueue : ∀ e ∈ a'.queue, e.2.isResponse = false →
      e ∈ a.queue ∨ e.2.isRequest = false ∧ Forward s ids C' a' e)
    (hasked : ∀ t, a'.asked (s, t) = a.asked (s, t)) : Link s ids C' a' b := by
  have hclosed : ∀ t, a.peer.tables.openId? t = none → a'.peer.tables.openId? t = none := by
    intro t ht
    rw [hc.openId?, ht]
    rfl
  have hstopped : ∀ t, Stopped ids C a t → Stopped ids C' a' t := fun t ht =>
    ⟨ht.sent, hC t ht.cancelled, hclosed t ht.closed⟩
  refine ⟨h.coherent.closes hc,
    h.sound.mono (fun _ _ _ hr => hr) fun k hk => ⟨hk.1, hstopped _ hk.2⟩,
    fun e he hr => ?_, fun e he hr t ht => hclosed t (h.taken e he hr t ht), fun t => ?_⟩
  · rcases hqueue e he hr with he | he
    · exact (h.forward e he hr).mono (fun _ _ hi => hi) hstopped
    · exact he.2
  · rw [hasked]
    exact h.balance t

theorem server (h : Link s ids C a b)
    (hs : b'.Sound (fun k id _ => k.1 = s ∧ ids[k.2]? = some id)
      fun k => k.1 = s ∧ Stopped ids C a k.2)
    (haccount : ∀ t, b'.account (s, t) = b.account (s, t))
    (htaken : ∀ e ∈ b'.taken, e.2.isResponse → e ∈ b.taken) : Link s ids C a b' where
  coherent := h.coherent
  sound := hs
  forward := h.forward
  taken := fun e he hr => h.taken e (htaken e he hr) hr
  balance := fun t => by rw [haccount]; exact h.balance t

/-- No call of the server begins or ends. -/
theorem keep (h : Link s ids C a b) {k : Option Origin} {q : Peer} {ms : List Message}
    {f : Call → Call} (hq : Tables.KeepsCalls b.peer.tables q.tables ms f)
    (hcancel : ∀ c ∈ b.peer.calls, (f c).cancelled → c.cancelled ∨
      ∀ j, b.cause c.key = some j → j.1 = s ∧ Stopped ids C a j.2) :
    Link s ids C a (b.advance k q) :=
  h.server (h.sound.keep hq hcancel) (fun _ => h.sound.account_keep hq _) fun _ he _ => he

/-- Only requests count as asked for. -/
theorem asked_append {es : List (Option Origin × Message)} (hqueue : a'.queue = a.queue ++ es)
    (hes : ∀ e ∈ es, e.2.isRequest = false) (k : Origin) : a'.asked k = a.asked k := by
  have hzero : es.countP (fun e => e.1 = some k && e.2.isRequest) = 0 := by
    apply List.countP_eq_zero.mpr
    intro e he
    simp [hes e he]
  rw [Ledger.asked, hqueue, List.countP_append, hzero]
  rfl

theorem request (h : Link s ids C a b) (hl : a.peer.listening = true) (method : String)
    (params : Payload) (hid : a.peer.codec.drawId.1 ∉ ids) :
    Link s (ids ++ [a.peer.codec.drawId.1]) C
      (a.advance (some (s, a.peer.tickets.length)) (a.peer.request method params).2) b := by
  have hlen : ids.length = a.peer.tickets.length := h.coherent.length
  have hopen := Peer.openId?_request (p := a.peer) method params
  have hold : ∀ (t : Nat) id, ids[t]? = some id →
      (ids ++ [a.peer.codec.drawId.1])[t]? = some id := by
    intro t id ht
    exact (List.getElem?_append_left (List.getElem?_eq_some_iff.mp ht).1).trans ht
  have hclosed : ∀ t < ids.length, a.peer.tables.openId? t = none →
      (a.peer.request method params).2.tables.openId? t = none := by
    intro t ht hc
    rw [hopen, if_neg (hlen ▸ Nat.ne_of_lt ht), hc]
  have hstopped : ∀ t, Stopped ids C a t → Stopped (ids ++ [a.peer.codec.drawId.1]) C
      (a.advance (some (s, a.peer.tickets.length)) (a.peer.request method params).2) t := by
    intro t ht
    refine ⟨?_, ht.cancelled, hclosed t ht.sent ht.closed⟩
    rw [List.length_append]
    exact Nat.lt_add_right _ ht.sent
  have hout : (a.peer.request method params).2.outgoing =
      a.peer.outgoing ++ [.request a.peer.codec.drawId.1 method params] := by
    obtain ⟨k, he, -⟩ := Peer.tables_request a.peer method params
    apply (congrArg Tables.outgoing he).trans
    rw [hl]
    rfl
  have hqueue := Ledger.queue_advance (k := some (s, a.peer.tickets.length)) hout
  refine ⟨Peer.coherent_request method params h.coherent hid, ?_, ?_, ?_, ?_⟩
  · exact h.sound.mono (fun k id _ hk => ⟨hk.1, hold _ _ hk.2⟩) fun k hk => ⟨hk.1, hstopped _ hk.2⟩
  · intro e he hr
    rw [hqueue] at he
    rcases List.mem_append.mp he with he | he
    · exact (h.forward e he hr).mono hold hstopped
    · rw [List.mem_singleton.mp he]
      apply Forward.request
      rw [← hlen]
      simp
  · intro e he hr t ht
    obtain ⟨k, id, m, o, rfl, -, hk⟩ := h.sound.responses e (List.mem_append_left _ he) hr
    obtain rfl := Option.some.inj ht
    exact hclosed t (List.getElem?_eq_some_iff.mp hk).1 (h.taken _ he hr t rfl)
  · intro t
    have hb := h.balance t
    have hasked : (a.advance (some (s, a.peer.tickets.length))
        (a.peer.request method params).2).asked (s, t) =
          a.asked (s, t) + if t = ids.length then 1 else 0 := by
      rw [Ledger.asked, hqueue, List.countP_append, ← hlen]
      congr 1
      by_cases ht : t = ids.length
      · simp [ht, Message.isRequest]
      · have ht' : ¬ ids.length = t := fun he => ht he.symm
        simp [ht, ht', Message.isRequest]
    have hnew : (if t < ids.length + 1 then 1 else 0) =
        (if t < ids.length then 1 else 0) + if t = ids.length then 1 else 0 := by
      split_ifs <;> omega
    rw [hasked, List.length_append, List.length_singleton, hnew]
    omega

theorem cancel (h : Link s ids C a b) (n : Node) (hC : ∀ t, C t → C' t)
    (hn : n.ticket < ids.length → C' n.ticket) :
    Link s ids C' (a.advance (some (s, n.ticket)) (a.peer.cancel n)) b := by
  have hc := Peer.closes_cancel h.coherent n
  obtain ⟨ms, hout, hnew⟩ := Peer.written_cancel h.coherent n
  have hqueue := Ledger.queue_advance (k := some (s, n.ticket)) hout
  refine h.caller hc hC (fun e he _ => ?_) fun t => ?_
  · rw [hqueue] at he
    rcases List.mem_append.mp he with he | he
    · exact .inl he
    · obtain ⟨m, hm, rfl⟩ := List.mem_map.mp he
      obtain ⟨id, ho, rfl⟩ := hnew m hm
      have hid := h.coherent.own _ _ ho
      have hlt := (List.getElem?_eq_some_iff.mp hid).1
      refine .inr ⟨rfl, .cancellation hid ⟨hlt, hn hlt, ?_⟩⟩
      change (a.peer.cancel n).tables.openId? n.ticket = none
      rw [hc.openId?, ho]
      simp [Option.filter]
  · refine asked_append hqueue (fun e he => ?_) _
    obtain ⟨m, hm, rfl⟩ := List.mem_map.mp he
    obtain ⟨id, -, rfl⟩ := hnew m hm
    rfl

/-- What the caller does in the opposite direction: it writes responses, or takes in what closes
requests of its own. -/
theorem respond (h : Link s ids C a b) {ends : Nat → MessageId → Bool}
    (hc : Tables.Closes a.peer.tables a'.peer.tables ends) {es : List (Option Origin × Message)}
    (hqueue : a'.queue = a.queue ++ es) (hes : ∀ e ∈ es, e.2.isResponse = true) :
    Link s ids C a' b := by
  refine h.caller hc (fun _ ht => ht) (fun e he hr => .inl ?_) fun t => ?_
  · rw [hqueue] at he
    rcases List.mem_append.mp he with he | he
    · exact he
    · exact absurd (hes e he) (by simp [hr])
  · refine asked_append hqueue (fun e he => ?_) _
    obtain ⟨id, method, o, hm⟩ := Message.eq_response (hes e he)
    rw [hm]
    rfl

private theorem closes_pop (a : Ledger Origin) :
    Tables.Closes a.peer.tables a.pop.peer.tables fun _ _ => false := .of_eq rfl rfl rfl rfl

theorem asked_pop {k : Option Origin} {m : Message} {rest : List (Option Origin × Message)}
    (hq : a.queue = (k, m) :: rest) (j : Origin) :
    a.asked j = a.pop.asked j + if k = some j ∧ m.isRequest then 1 else 0 := by
  simp only [Ledger.asked, Ledger.pop, hq, List.tail_cons, List.countP_cons]
  congr 1
  by_cases hk : k = some j <;> cases m.isRequest <;> simp [hk]

theorem pop_caller (h : Link s ids C a b) {k : Option Origin} {m : Message}
    {rest : List (Option Origin × Message)} (hq : a.queue = (k, m) :: rest)
    (hm : m.isRequest = false) : Link s ids C a.pop b := by
  refine h.caller (closes_pop a) (fun _ ht => ht) (fun e he _ => .inl ?_) fun t => ?_
  · exact List.mem_of_mem_tail he
  · rw [asked_pop hq]
    simp [hm]

theorem pop_server (h : Link s ids C a b) {k : Option Origin} {m : Message}
    {rest : List (Option Origin × Message)} (hq : b.queue = (k, m) :: rest)
    (hm : m.isResponse = false) : Link s ids C a b.pop := by
  refine h.server h.sound.pop (fun _ => Ledger.Sound.account_pop b _) fun e he hr => ?_
  rcases List.mem_append.mp he with he | he
  · exact he
  · rw [hq, List.take_succ_cons, List.take_zero, List.mem_singleton] at he
    exact absurd hr (by simp [he, hm])

/-- A request is taken off the queue and refused or served. -/
theorem deliver_request (h : Link s ids C a b) {k : Option Origin} {id : MessageId}
    {method : String} {params : Payload} {rest : List (Option Origin × Message)}
    (hq : a.queue = (k, .request id method params) :: rest) :
    Link s ids C a.pop (b.advance k (b.peer.consume (.request id method params))) := by
  have hmem : (k, .request id method params) ∈ a.queue := hq ▸ List.mem_cons_self
  obtain ⟨t, hk, hid⟩ : ∃ t, k = some (s, t) ∧ ids[t]? = some id := by
    generalize he : (k, Message.request id method params) = e at hmem
    cases h.forward e hmem (he ▸ rfl) with
    | request _ _ hid =>
      cases he
      exact ⟨_, rfl, hid⟩
    | cancellation _ _ => exact absurd (congrArg Prod.snd he) (by simp [Message.cancellation])
  subst hk
  have htakes : Tables.Takes b.peer.tables (b.peer.consume (.request id method params)).tables id
      method := by
    rcases Peer.tables_handleRequest b.peer id method params with ho | ⟨-, ho⟩
    · exact .inl ho
    · exact .inr ⟨params, ho⟩
  refine ⟨h.coherent.closes (closes_pop a), ?_, ?_, h.taken, fun u => ?_⟩
  · exact (h.sound.take (k := (s, t)) htakes ⟨rfl, hid⟩).mono (fun _ _ _ hr => hr)
      fun k hk => ⟨hk.1, hk.2.sent, hk.2.cancelled, hk.2.closed⟩
  · intro e he hr
    exact (h.forward e (List.mem_of_mem_tail he) hr).mono (fun _ _ hi => hi)
      fun _ hs => ⟨hs.sent, hs.cancelled, hs.closed⟩
  · have hb := h.balance u
    rw [asked_pop hq] at hb
    rw [h.sound.account_take htakes, ← hb]
    by_cases hu : u = t
    · simp [hu, Message.isRequest]
      omega
    · have hu' : ¬ t = u := fun he => hu he.symm
      simp [hu, hu', Message.isRequest]

/-- A cancellation reaches the call of the request that was cancelled, if it is in flight. -/
theorem deliver_notification (h : Link s ids C a b) {k : Option Origin} {method : String}
    {params : Payload} (he : Forward s ids C a (k, .notification method params)) :
    Link s ids C a (b.advance k (b.peer.consume (.notification method params))) := by
  obtain ⟨t, id, rfl, hparams, hid, hs⟩ : ∃ t id, k = some (s, t) ∧
      params = CancelParams.payload ⟨id⟩ ∧ ids[t]? = some id ∧ Stopped ids C a t := by
    generalize he' : (k, Message.notification method params) = e at he
    cases he with
    | request => exact absurd (congrArg Prod.snd he') (by simp)
    | cancellation hid hs =>
      cases he'
      exact ⟨_, _, rfl, rfl, hid, hs⟩
  obtain ⟨f, hf, hcancel, ht⟩ := Peer.tables_handleNotification b.peer method params
  have hq : Tables.KeepsCalls b.peer.tables
      (b.peer.consume (.notification method params)).tables [] f := by
    rw [Peer.consume, ht]
    exact .map_calls _ hf
  refine h.keep hq fun c hc hx => ?_
  rcases hcancel c hc hx with hx | ⟨d, hd, hkey, -, hdec⟩
  · exact .inl hx
  · right
    intro j hj
    -- the call that is named has the id of the request that was cancelled, so it is that one's
    rw [hparams, CancelParams.decode_payload] at hdec
    have hdi : id = d.id := Except.ok.inj hdec
    obtain ⟨i, hi, ⟨his, hii⟩, -⟩ := h.sound.calls d hd
    rw [hkey, hj] at hi
    obtain rfl := Option.some.inj hi
    have htj : j.2 = t := h.coherent.ticket_eq (hdi ▸ hii) hid
    exact ⟨his, htj ▸ hs⟩

/-- A response leaves the queue of the server and closes the request that it answers. -/
theorem deliver_response (h : Link s ids C a b) {k : Option Origin} {id : Option MessageId}
    {method : Option String} {o : Outcome} {rest : List (Option Origin × Message)}
    (hq : b.queue = (k, .response id method o) :: rest) :
    Link s ids C (a.advance k (a.peer.consume (.response id method o))) b.pop := by
  have hc := Peer.closes_handleResponse h.coherent id o
  obtain ⟨ts, ps, ht⟩ := Peer.frame_handleResponse a.peer id o
  have hout : (a.peer.consume (.response id method o)).outgoing = a.peer.outgoing ++ [] :=
    (congrArg Tables.outgoing ht).trans (List.append_nil _).symm
  have h' : Link s ids C (a.advance k (a.peer.consume (.response id method o))) b :=
    h.respond hc (Ledger.queue_advance hout) (by simp)
  refine ⟨h'.coherent, h'.sound.pop, h'.forward, fun e he hr t ht => ?_, fun t => ?_⟩
  · rcases List.mem_append.mp he with he | he
    · exact h'.taken e he hr t ht
    · rw [hq, List.take_succ_cons, List.take_zero, List.mem_singleton] at he
      subst he
      have hmem : (k, .response id method o) ∈ b.taken ++ b.queue := by simp [hq]
      obtain ⟨j, i, _, _, hji, hjs, hi⟩ := h.sound.responses _ hmem rfl
      cases hji
      obtain rfl := Option.some.inj ht
      change (a.peer.handleResponse (some i) o).tables.openId? t = none
      rw [hc.openId?]
      cases hopen : a.peer.tables.openId? t with
      | none => rfl
      | some x =>
        have hx : x = i := Option.some.inj ((h.coherent.own _ _ hopen).symm.trans hi)
        simp [Option.filter, hx]
  · rw [Ledger.Sound.account_pop]
    exact h'.balance t

/-- A message of the caller reaches the server. -/
theorem deliver (h : Link s ids C a b) {k : Option Origin} {m : Message}
    {rest : List (Option Origin × Message)} (hq : a.queue = (k, m) :: rest) :
    Link s ids C a.pop (b.advance k (b.peer.consume m)) := by
  cases m with
  | request id method params => exact h.deliver_request hq
  | notification method params =>
    have hf := h.forward _ (hq ▸ List.mem_cons_self) rfl
    exact (h.deliver_notification hf).pop_caller hq rfl
  | response id method o =>
    obtain ⟨ts, ps, ht⟩ := Peer.frame_handleResponse b.peer id o
    have hkeeps : Tables.KeepsCalls b.peer.tables
        (b.peer.consume (.response id method o)).tables [] (fun c => c) := by
      rw [Peer.consume, ht]
      exact .of_calls_eq (List.append_nil _).symm (by simp) rfl rfl rfl rfl
    exact (h.pop_caller hq rfl).keep hkeeps fun _ _ hc => .inl hc

theorem deliver_back (h : Link s ids C a b) {k : Option Origin} {m : Message}
    {rest : List (Option Origin × Message)} (hq : b.queue = (k, m) :: rest) :
    Link s ids C (a.advance k (a.peer.consume m)) b.pop := by
  cases hm : m.isResponse with
  | true =>
    obtain ⟨id, method, o, rfl⟩ := Message.eq_response hm
    exact h.deliver_response hq
  | false =>
    obtain ⟨ms, ts, ps, cs, key, ht, hms, -⟩ := Peer.frame_consume a.peer m
    have ho : (a.peer.consume m).outgoing = a.peer.outgoing ++ ms := congrArg Tables.outgoing ht
    have hqueue := Ledger.queue_advance (k := k) ho
    have hkept : Link s ids C (a.advance k (a.peer.consume m)) b := by
      refine h.respond (Peer.closes_consume h.coherent m) hqueue fun e he => ?_
      obtain ⟨x, hx, rfl⟩ := List.mem_map.mp he
      exact hms x hx
    exact hkept.pop_server hq hm

end Link

theorem completes?_eq_some_iff {p : Peer} (h : p.tables.Coherent ids) (i : MessageId)
    (method : Option String) (o : Outcome) (t : Nat) :
    p.completes? (.response (some i) method o) = some t ↔ p.tables.openId? t = some i :=
  h.find?_pending i t

namespace Completes

variable {completed : List Completion}

theorem start {p q : Peer} (hp : p.Fresh) : Completes s { peer := p } { peer := q } [] where
  caused := by simp
  once := List.nodup_nil
  arrived := by simp [Tables.arrived?, Peer.tables, hp.tickets]

/-- No response arrives. -/
theorem frame (h : Completes s a b completed)
    (ha : ∀ t, a'.peer.tables.arrived? t = a.peer.tables.arrived? t)
    (hb : ∀ e ∈ b.taken, e ∈ b'.taken) : Completes s a' b' completed where
  caused := fun d hd => ⟨(h.caused d hd).1, (h.caused d hd).2.1, hb _ (h.caused d hd).2.2⟩
  once := h.once
  arrived := fun t r => by rw [ha]; exact h.arrived t r

/-- A request that has been completed is closed. -/
theorem closed (h : Completes s a b completed) (hl : Link s ids C a b) {d : Completion}
    (hd : d ∈ completed) : a.peer.tables.openId? d.ticket = none :=
  hl.taken _ (h.caused d hd).2.2 (h.caused d hd).2.1 d.ticket (h.caused d hd).1

/-- A response completes the request that it was written for, unless that is closed already. -/
theorem deliver_response (h : Completes s a b completed) (hl : Link s ids C a b) {k : Option Origin}
    {m : Message} {rest : List (Option Origin × Message)} (hq : b.queue = (k, m) :: rest)
    (hm : m.isResponse = true) :
    Completes s (a.advance k (a.peer.consume m)) b.pop
      (completed ++ (a.peer.completes? m).toList.map fun t => ⟨t, k, m⟩) := by
  have hmem : (k, m) ∈ b.taken ++ b.queue := by simp [hq]
  obtain ⟨⟨s', t⟩, i, method, o, he, hs, hi⟩ := hl.sound.responses _ hmem hm
  cases he
  obtain rfl : s' = s := hs
  have harrived : ∀ u, (a.peer.handleResponse (some i) o).tables.arrived? u =
      if a.peer.tables.openId? u = some i then some o.reply else a.peer.tables.arrived? u := by
    intro u
    simpa using Peer.arrived?_handleResponse hl.coherent (some i) o u
  have hopen := completes?_eq_some_iff hl.coherent i (some method) o
  have hkept : ∀ e ∈ b.taken, e ∈ b.pop.taken := fun e he => List.mem_append_left _ he
  cases hc : a.peer.completes? (.response (some i) (some method) o) with
  | none =>
    have hno : ∀ u, ¬ a.peer.tables.openId? u = some i := by
      intro u hu
      rw [← hopen, hc] at hu
      exact absurd hu (by simp)
    rw [Option.toList_none, List.map_nil, List.append_nil]
    exact h.frame (fun u => (harrived u).trans (if_neg (hno u))) hkept
  | some u =>
    -- only the request that the response was written for has its id
    have hu := (hopen u).mp hc
    have hall : ∀ v, a.peer.tables.openId? v = some i → v = t := fun v hv =>
      hl.coherent.ticket_eq (hl.coherent.own _ _ hv) hi
    obtain rfl : u = t := hall u hu
    refine ⟨fun d hd => ?_, ?_, fun v r => ?_⟩
    · rcases List.mem_append.mp hd with hd | hd
      · exact ⟨(h.caused d hd).1, (h.caused d hd).2.1, hkept _ (h.caused d hd).2.2⟩
      · rw [Option.toList_some, List.map_singleton, List.mem_singleton] at hd
        subst hd
        exact ⟨rfl, rfl, List.mem_append_right _ (by simp [hq])⟩
    · rw [Option.toList_some, List.map_singleton, List.map_append, List.map_singleton]
      refine List.nodup_append.mpr ⟨h.once, by simp, ?_⟩
      rintro v hv w hw rfl
      obtain ⟨d, hd, rfl⟩ := List.mem_map.mp hv
      have hdu : d.ticket = u := List.mem_singleton.mp hw
      have hclosed := h.closed hl hd
      rw [hdu, hu] at hclosed
      exact absurd hclosed (by simp)
    · refine (Eq.to_iff (congrArg (· = some r) (harrived v))).trans ?_
      rw [Option.toList_some, List.map_singleton]
      simp only [List.mem_append, List.mem_singleton, or_and_right, exists_or, exists_eq_left]
      split
      next hv =>
        obtain rfl := hall v hv
        have hnone : ¬ ∃ d ∈ completed, d.ticket = v ∧ d.message.reply? = some r := by
          rintro ⟨d, hd, rfl, -⟩
          have hclosed := h.closed hl hd
          rw [hv] at hclosed
          exact absurd hclosed (by simp)
        have hreply : (Message.response (some i) (some method) o).reply? = some o.reply := rfl
        simp only [hnone, false_or, hreply, true_and]
      next hv =>
        rw [h.arrived]
        have hne : ¬ u = v := fun he => hv (he ▸ hu)
        simp [hne]

theorem deliver (h : Completes s a b completed) (hl : Link s ids C a b) {k : Option Origin}
    {m : Message} {rest : List (Option Origin × Message)} (hq : b.queue = (k, m) :: rest) :
    Completes s (a.advance k (a.peer.consume m)) b.pop
      (completed ++ (a.peer.completes? m).toList.map fun t => ⟨t, k, m⟩) := by
  cases hm : m.isResponse with
  | true => exact h.deliver_response hl hq hm
  | false =>
    have hc : a.peer.completes? m = none := by
      cases m with
      | response => exact absurd hm (by simp [Message.isResponse])
      | request | notification => rfl
    rw [hc, Option.toList_none, List.map_nil, List.append_nil]
    exact h.frame (Peer.arrived?_consume a.peer hm) fun e he => List.mem_append_left _ he

end Completes
end RpcPeer
