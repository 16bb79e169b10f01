import RpcPeer.Proofs.Peer.Acts

/-! What the ticket of a request tells. -/
namespace RpcPeer

namespace Ticket

@[simp] theorem cancelledFrom_claim (k : Ticket) : k.claim.cancelledFrom = k.cancelledFrom := rfl

@[simp] theorem cancelledFrom_complete (k : Ticket) :
    k.complete.cancelledFrom = k.cancelledFrom := rfl

@[simp] theorem cancelledFrom_lose (k : Ticket) : k.lose.cancelledFrom = k.cancelledFrom := by
  unfold lose
  split <;> rfl

end Ticket

namespace Tables

/-- From which depth on the nodes of each ticket are cancelled. -/
def marks (t : Tables) : List (Option Nat) := t.tickets.map Ticket.cancelledFrom

theorem map_modify_of_eq {α : Type} {g : Ticket → α} {f : Ticket → Ticket}
    (hf : ∀ k, g (f k) = g k) (l : List Ticket) (i : Nat) : (l.modify i f).map g = l.map g := by
  refine List.ext_getElem? fun u => ?_
  rw [List.getElem?_map, List.getElem?_map, List.getElem?_modify]
  cases l[u]? with
  | none => rfl
  | some k => by_cases h : i = u <;> simp [h, hf]

end Tables

/-- Does an act cancel a node? It cancels one node and all nodes that are derived from it. -/
def Act.marks (n : Node) : Act → Bool
  | cancel m => m.ticket == n.ticket && decide (m.depth ≤ n.depth)
  | _ => false

namespace Peer

variable {p : Peer}

theorem isCancelled_eq (p : Peer) (n : Node) :
    p.isCancelled n = (p.tables.marks.getD n.ticket none).any (· ≤ n.depth) := by
  have ht : p.tables.marks.getD n.ticket none = (p.ticket n.ticket).cancelledFrom := by
    rw [List.getD_eq_getElem?_getD, Tables.marks, List.getElem?_map, ticket,
      List.getD_eq_getElem?_getD]
    change (p.tickets[n.ticket]?.map _).getD none = _
    cases p.tickets[n.ticket]? <;> rfl
  rw [ht]
  rfl

theorem marks_dropPending (p : Peer) (id : MessageId) :
    (p.dropPending id).tables.marks = p.tables.marks := by
  cases h : p.pending.find? (·.id == id) with
  | none => simp [dropPending, h]
  | some r =>
    rw [tables_dropPending_of_some h]
    exact Tables.map_modify_of_eq Ticket.cancelledFrom_lose _ _

theorem marks_runAction (p : Peer) (a : CancelAction) :
    (p.runAction a).tables.marks = p.tables.marks := by
  cases a with
  | cancelRequest id =>
    cases hc : p.closed with
    | true => simp [runAction, hc]
    | false =>
      rw [tables_runAction hc]
      exact marks_dropPending p id
  | custom r => cases r <;> rfl

theorem marks_sendCancel (p : Peer) (t : Nat) :
    (p.sendCancel t).2.tables.marks = p.tables.marks := by
  have hclaim : (p.modifyTicket t Ticket.claim).tables.marks = p.tables.marks :=
    Tables.map_modify_of_eq Ticket.cancelledFrom_claim _ _
  cases hc : (p.ticket t).isClaimable with
  | false => rw [sendCancel_of_not_claimable hc]
  | true =>
    cases ha : (p.ticket t).action with
    | none =>
      rw [sendCancel_of_none hc ha]
      exact hclaim
    | some a =>
      rw [sendCancel_of_some hc ha]
      exact (marks_runAction _ _).trans hclaim

/-- Cancelling a node marks it and the nodes that are derived from it, whatever becomes of the
request, and it marks no other node. -/
theorem isCancelled_cancel (p : Peer) (n : Node) {m : Node} (hm : m.ticket < p.tickets.length) :
    (p.cancel n).isCancelled m = (p.isCancelled m || (Act.cancel n).marks m) := by
  have hmarks : (p.cancel n).tables.marks =
      p.tables.marks.modify n.ticket fun d => some (d.elim n.depth (min n.depth)) := by
    rw [← marks_sendCancel p n.ticket]
    refine List.ext_getElem? fun u => ?_
    simp only [Tables.marks, cancel, modifyTicket, tables, List.getElem?_map, List.getElem?_modify]
    cases (p.sendCancel n.ticket).2.tickets[u]? with
    | none => rfl
    | some k => by_cases h : n.ticket = u <;> simp [h, Ticket.cancelFrom]
  have hlt : m.ticket < p.tables.marks.length := by simpa [Tables.marks, tables] using hm
  rw [isCancelled_eq, isCancelled_eq, hmarks, List.getD_eq_getElem?_getD,
    List.getD_eq_getElem?_getD, List.getElem?_modify, Act.marks]
  by_cases h : n.ticket = m.ticket
  · rw [h, List.getElem?_eq_getElem hlt]
    cases p.tables.marks[m.ticket] with
    | none => simp
    | some d =>
      apply Bool.eq_iff_iff.mpr
      simp [or_comm]
  · have hb : (n.ticket == m.ticket) = false := beq_false_of_ne h
    simp [h, hb]

theorem marks_giveUp (p : Peer) (r : PendingRequest) :
    (p.giveUp r).tables.marks = p.tables.marks := by
  refine Eq.trans ?_ (marks_dropPending p r.id)
  exact Tables.map_modify_of_eq Ticket.cancelledFrom_complete _ _

theorem marks_abandonPending (p : Peer) : p.abandonPending.tables.marks = p.tables.marks := by
  have hall : ∀ (rs : List PendingRequest) (q : Peer),
      (rs.foldl giveUp q).tables.marks = q.tables.marks := by
    intro rs
    induction rs with
    | nil => exact fun q => rfl
    | cons r rs ih => exact fun q => (ih _).trans (marks_giveUp q r)
  unfold abandonPending
  simp only
  split
  · exact hall p.pending p
  · exact (hall p.pending (p.log _ _)).trans (congrArg Tables.marks (tables_log _ _ _))

theorem marks_consume (p : Peer) (m : Message) : (p.consume m).tables.marks = p.tables.marks := by
  cases hm : m.isResponse with
  | false =>
    obtain ⟨ms, ts, ps, cs, k, ht, -, hsame⟩ := frame_consume p m
    obtain ⟨rfl, -⟩ := hsame hm
    rw [ht]
    rfl
  | true =>
    obtain ⟨id, method, o, rfl⟩ := Message.eq_response hm
    cases hf : id.bind fun i => p.pending.find? (·.id == i) with
    | none =>
      rw [consume, tables_handleResponse_of_none fun i hi => by simpa [hi] using hf]
    | some r =>
      obtain ⟨i, rfl, hr⟩ := Option.bind_eq_some_iff.mp hf
      rw [consume, tables_handleResponse_of_some hr]
      exact (Tables.map_modify_of_eq (f := ({ · with reply := .arrived o.reply })) (fun _ => rfl)
        (p.tickets.modify r.ticket Ticket.complete) r.ticket).trans
        (Tables.map_modify_of_eq Ticket.cancelledFrom_complete _ _)

variable {ids : List MessageId}

theorem marks_request (p : Peer) (method : String) (params : Payload) :
    (p.request method params).2.tables.marks = p.tables.marks ++ [none] := by
  obtain ⟨k, ht, -, -, -, -, hk⟩ := tables_request p method params
  rw [ht, Tables.marks, List.map_append, List.map_singleton, hk]
  rfl

theorem isCancelled_act (h : p.tables.Coherent ids) (a : Act) {n : Node}
    (hn : n.ticket < p.tickets.length) :
    (p.act a).isCancelled n = (p.isCancelled n || a.marks n) := by
  have hsame : ∀ q : Peer, q.tables.marks = p.tables.marks →
      q.isCancelled n = (p.isCancelled n || false) := by
    intro q hq
    rw [isCancelled_eq, isCancelled_eq, hq, Bool.or_false]
  cases a with
  | request method params =>
    have hlt : n.ticket < p.tables.marks.length := by simpa [Tables.marks, tables] using hn
    rw [act, isCancelled_eq, marks_request, isCancelled_eq, List.getD_eq_getElem?_getD,
      List.getElem?_append_left hlt, ← List.getD_eq_getElem?_getD]
    exact (Bool.or_false _).symm
  | cancel m => exact isCancelled_cancel p m hn
  | consume m => exact hsame _ (marks_consume p m)
  | abandon => exact hsame _ (marks_abandonPending p)
  | listen | encode => exact hsame _ rfl
  | call key m =>
    obtain ⟨ms, cs, ht, -⟩ := frame_moveCall h.owned key m
    exact hsame _ (by rw [act, ht]; rfl)

end Peer

/-- What an act answers, if it is a response. -/
def Act.answer? : Act → Option Outcome
  | consume (.response _ _ o) => some o
  | _ => none

namespace Ticket

@[simp] theorem arrived?_complete (k : Ticket) : k.complete.arrived? = k.arrived? := rfl

theorem reply_of_arrived? {k : Ticket} {r : Except ResponseError Payload}
    (h : k.arrived? = some r) : k.reply = .arrived r := by
  unfold arrived? at h
  split at h
  next x hx => rw [hx, Option.some.inj h]
  next => cases h

theorem isWaiting_lose (k : Ticket) : k.lose.reply.isWaiting = false := by
  unfold lose
  split
  · rfl
  next h => exact Bool.eq_false_iff.mpr h

/-- A ticket that is closed, and whose reply has come or is lost. -/
theorem Settled.of_closed {k : Ticket} (ho : k.openId? = none) (hr : k.reply.isWaiting = false) :
    k.Settled := by
  rw [Settled, ho, hr]
  rfl

end Ticket

/-- On every ticket a reply is waited for exactly as long as the request is open. -/
def Tables.Settled (t : Tables) : Prop := ∀ k ∈ t.tickets, k.Settled

theorem Tables.settled_modify {l : List Ticket} (hl : ∀ k ∈ l, k.Settled) {i : Nat}
    {f : Ticket → Ticket} (hf : ∀ k, l[i]? = some k → (f k).Settled) :
    ∀ k ∈ l.modify i f, k.Settled := by
  intro k hk
  obtain ⟨u, hu⟩ := List.mem_iff_getElem?.mp hk
  rw [List.getElem?_modify] at hu
  obtain ⟨k', hk', he⟩ := Option.map_eq_some_iff.mp hu
  subst he
  split
  next h => exact hf k' (h ▸ hk')
  next => exact hl k' (List.mem_of_getElem? hk')

namespace Peer

variable {p : Peer} {ids : List MessageId}

theorem settled_cancel (h : p.tables.Coherent ids) (hs : p.tables.Settled) (n : Node) :
    (p.cancel n).tables.Settled := by
  cases hn : p.tables.openId? n.ticket with
  | none =>
    rw [tables_cancel_of_none h hn]
    exact Tables.settled_modify hs fun k hk => hs k (List.mem_of_getElem? hk)
  | some id =>
    rw [tables_cancel_of_some h hn]
    change ∀ k ∈ ((p.tickets.modify n.ticket Ticket.claim).modify n.ticket Ticket.lose).modify
      n.ticket (·.cancelFrom n.depth), k.Settled
    rw [List.modify_modify_eq, List.modify_modify_eq]
    refine Tables.settled_modify hs fun k _ => .of_closed ?_ k.claim.isWaiting_lose
    simp

theorem settled_handleResponse (hs : p.tables.Settled) (id : Option MessageId) (o : Outcome) :
    (p.handleResponse id o).tables.Settled := by
  cases hf : id.bind fun i => p.pending.find? (·.id == i) with
  | none =>
    rw [tables_handleResponse_of_none fun i hi => by simpa [hi] using hf]
    exact hs
  | some r =>
    obtain ⟨i, rfl, hr⟩ := Option.bind_eq_some_iff.mp hf
    rw [tables_handleResponse_of_some hr]
    change ∀ k ∈ (p.tickets.modify r.ticket Ticket.complete).modify r.ticket
      ({ · with reply := .arrived o.reply }), k.Settled
    rw [List.modify_modify_eq]
    refine Tables.settled_modify hs fun k _ => .of_closed ?_ rfl
    exact (k.complete.openId?_reply _).trans k.openId?_complete

/-- Giving up a request loses its reply, if it is still waited for. -/
theorem settled_giveUp (h : p.tables.Coherent ids) (hs : p.tables.Settled) {r : PendingRequest}
    (hr : ids[r.ticket]? = some r.id) : (p.giveUp r).tables.Settled := by
  cases hf : p.pending.find? (·.id == r.id) with
  | none =>
    have hd : p.dropPending r.id = p := by simp [dropPending, hf]
    have hno : p.tables.openId? r.ticket = none := by
      cases ho : p.tables.openId? r.ticket with
      | none => rfl
      | some id =>
        rw [Option.some.inj ((h.own _ _ ho).symm.trans hr)] at ho
        have := (h.find?_pending r.id r.ticket).mpr ho
        change (p.pending.find? (·.id == r.id)).map _ = _ at this
        rw [hf] at this
        cases this
    rw [giveUp, hd]
    refine Tables.settled_modify hs fun k hk => ?_
    have hko : k.openId? = none := by
      rw [← hno, Tables.openId?, hk]
      rfl
    have hw : k.reply.isWaiting = false := by
      rw [hs k (List.mem_of_getElem? hk), hko]
      rfl
    exact .of_closed (by simp) hw
  | some s =>
    have hst : s.ticket = r.ticket := by
      have hsm := List.mem_of_find?_eq_some hf
      have hsi : s.id = r.id := by simpa using List.find?_some hf
      exact (h.id_eq_iff hr hsm).mp hsi
    have ht : (p.giveUp r).tables.tickets =
        p.tickets.modify r.ticket (Ticket.complete ∘ Ticket.lose) := by
      have hd := congrArg Tables.tickets (tables_dropPending_of_some hf)
      rw [hst] at hd
      rw [← List.modify_modify_eq]
      exact congrArg (List.modify · r.ticket Ticket.complete) hd
    rw [Tables.Settled, ht]
    exact Tables.settled_modify hs fun k _ => .of_closed (by simp) k.isWaiting_lose

theorem settled_abandonPending (h : p.tables.Coherent ids) (hs : p.tables.Settled) :
    p.abandonPending.tables.Settled := by
  have hall : ∀ (rs : List PendingRequest) (q : Peer), q.tables.Coherent ids → q.tables.Settled →
      (∀ r ∈ rs, ids[r.ticket]? = some r.id) → (rs.foldl giveUp q).tables.Settled := by
    intro rs
    induction rs with
    | nil => exact fun q _ hq _ => hq
    | cons r rs ih =>
      intro q hc hq hrs
      have hr := hrs r (by simp)
      exact ih _ (hc.closes (closes_giveUp hc hr)) (settled_giveUp hc hq hr)
        fun s hs => hrs s (by simp [hs])
  have hown : ∀ r ∈ p.pending, ids[r.ticket]? = some r.id := fun r hr =>
    h.own _ _ (h.openId?_of_mem hr)
  unfold abandonPending
  simp only
  split
  · exact hall _ p h hs hown
  · exact hall _ (p.log _ _) h hs hown

theorem settled_act (h : p.tables.Coherent ids) (hs : p.tables.Settled) (a : Act) :
    (p.act a).tables.Settled := by
  cases a with
  | request method params =>
    obtain ⟨k, ht, -, -, -, hk, -⟩ := tables_request p method params
    rw [act, ht]
    intro l hl
    rcases List.mem_append.mp hl with hl | hl
    · exact hs l hl
    · rw [List.mem_singleton.mp hl]
      exact hk
  | cancel n => exact settled_cancel h hs n
  | consume m =>
    cases hm : m.isResponse with
    | true =>
      obtain ⟨id, method, o, rfl⟩ := Message.eq_response hm
      exact settled_handleResponse hs id o
    | false =>
      obtain ⟨ms, ts, ps, cs, k, ht, -, hsame⟩ := frame_consume p m
      obtain ⟨rfl, -⟩ := hsame hm
      rw [act, ht]
      exact hs
  | abandon => exact settled_abandonPending h hs
  | listen | encode => exact hs
  | call key m =>
    obtain ⟨ms, cs, ht, -⟩ := frame_moveCall h.owned key m
    rw [act, ht]
    exact hs

theorem arrived?_abandonPending (p : Peer) (u : Nat) :
    p.abandonPending.tables.arrived? u = p.tables.arrived? u := by
  have hone : ∀ (q : Peer) (r : PendingRequest),
      (q.giveUp r).tables.arrived? u = q.tables.arrived? u := by
    intro q r
    obtain ⟨ts, ht, hts⟩ := tables_giveUp q r
    rw [ht]
    refine (Tables.bind_modify_of_eq _ _ _ Ticket.arrived?_complete).trans ?_
    rcases hts with rfl | ⟨v, rfl⟩
    · rfl
    · exact Tables.bind_modify_of_eq _ _ _ Ticket.arrived?_lose
  have hall : ∀ (rs : List PendingRequest) (q : Peer),
      (rs.foldl giveUp q).tables.arrived? u = q.tables.arrived? u := by
    intro rs
    induction rs with
    | nil => exact fun q => rfl
    | cons r rs ih => exact fun q => (ih _).trans (hone q r)
  unfold abandonPending
  simp only
  split
  · exact hall p.pending p
  · exact hall p.pending (p.log _ _)

/-- The reply of an open request arrives with the response that ends it. -/
theorem arrived?_act (h : p.tables.Coherent ids) (a : Act) (u : Nat) :
    (p.act a).tables.arrived? u =
      ((((p.tables.openId? u).filter (a.ends u ·)).bind fun _ => a.answer?).map Outcome.reply).or
        (p.tables.arrived? u) := by
  have hquiet : a.answer? = none → p.tables.arrived? u =
      ((((p.tables.openId? u).filter (a.ends u ·)).bind fun _ => a.answer?).map
        Outcome.reply).or (p.tables.arrived? u) := by
    intro ha
    rw [ha, Option.bind_fun_none]
    rfl
  cases a with
  | request method params => exact (arrived?_request method params u).trans (hquiet rfl)
  | cancel n => exact (arrived?_cancel h n u).trans (hquiet rfl)
  | abandon => exact (arrived?_abandonPending p u).trans (hquiet rfl)
  | listen | encode => exact hquiet rfl
  | call key m =>
    obtain ⟨ms, cs, ht, -⟩ := frame_moveCall h.owned key m
    refine Eq.trans ?_ (hquiet rfl)
    rw [act, ht]
    rfl
  | consume m =>
    cases m with
    | request | notification => exact (arrived?_consume p rfl u).trans (hquiet rfl)
    | response id method o =>
      refine (arrived?_handleResponse h id o u).trans ?_
      cases ho : p.tables.openId? u with
      | none =>
        rw [if_neg]
        · rfl
        · rintro ⟨hid, he⟩
          rw [← he] at hid
          cases hid
      | some i =>
        by_cases he : some i = id
        · subst he
          simp [Act.ends, Act.answer?, Option.filter]
        · have hb : (id == some i) = false := beq_false_of_ne fun h => he h.symm
          rw [if_neg fun hs => he hs.2]
          simp [Act.ends, Option.filter, hb]

end Peer
end RpcPeer
