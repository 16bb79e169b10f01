import RpcPeer.Proofs.Peer.OpenRequests

/-! What the operations on requests do to the tables of a coherent peer. -/
namespace RpcPeer

def Message.cancellation (id : MessageId) : Message :=
  .notification Message.cancelMethod (CancelParams.payload ⟨id⟩)

theorem CancelParams.decode_payload (c : CancelParams) :
    CancelParams.decode c.payload = .ok c.id := by
  have hp : c.payload.decode CancelParams.shape = pure c.toDatum := by
    simp [CancelParams.payload, Payload.decode]
    rfl
  have hf : c.toDatum.field? "id" >>= MessageId.ofDatum? = some c.id := by
    cases hi : c.id <;>
      simp [CancelParams.toDatum, Datum.field?, hi, MessageId.toDatum, MessageId.ofDatum?]
  unfold CancelParams.decode
  rw [hp, pure_bind, hf]
  rfl

def Message.cancels (id : MessageId) : Message → Bool
  | .notification method params =>
    method == Message.cancelMethod &&
      match CancelParams.decode params with
      | .ok i => i == id
      | .error _ => false
  | _ => false

@[simp] theorem Message.cancels_request (id i : MessageId) (method : String) (params : Payload) :
    (Message.request i method params).cancels id = false := rfl

@[simp] theorem Message.cancels_response (id : MessageId) (i : Option MessageId)
    (method : Option String) (o : Outcome) : (Message.response i method o).cancels id = false := rfl

@[simp] theorem Message.cancels_cancellation (id i : MessageId) :
    (Message.cancellation i).cancels id = (i == id) := by
  simp [Message.cancels, Message.cancellation, CancelParams.decode_payload]

/-- What a caller gets from an outcome. -/
def Outcome.reply : Outcome → Except ResponseError Payload
  | .result v => .ok v
  | .error e => .error e

namespace Peer

variable {p : Peer} {ids : List MessageId}

theorem ticket_eq_of_getElem? {t : Nat} {k : Ticket} (h : p.tickets[t]? = some k) :
    p.ticket t = k := by
  simp [ticket, List.getD, h]

theorem sendCancel_of_not_claimable {t : Nat} (h : (p.ticket t).isClaimable = false) :
    p.sendCancel t = (false, p) := by
  simp [sendCancel, h]

theorem sendCancel_of_none {t : Nat} (h : (p.ticket t).isClaimable = true)
    (ha : (p.ticket t).action = none) : p.sendCancel t = (true, p.modifyTicket t Ticket.claim) := by
  simp [sendCancel, h, ha]

theorem sendCancel_of_some {t : Nat} {a : CancelAction} (h : (p.ticket t).isClaimable = true)
    (ha : (p.ticket t).action = some a) :
    p.sendCancel t = (true, (p.modifyTicket t Ticket.claim).runAction a) := by
  simp [sendCancel, h, ha]

theorem tables_runAction (h : p.closed = false) (id : MessageId) :
    (p.runAction (.cancelRequest id)).tables =
      (p.dropPending id).tables.post (.cancellation id) := by
  simp only [runAction, h, notify]
  exact tables_post_or_log _ _ _ _

/-- The cancellation of a request that is not open stays with the promise. -/
theorem tables_cancel_of_none (h : p.tables.Coherent ids) {n : Node}
    (hn : p.tables.openId? n.ticket = none) :
    (p.cancel n).tables =
      { p.tables with tickets := p.tickets.modify n.ticket (·.cancelFrom n.depth) } := by
  cases hk : p.tickets[n.ticket]? with
  | none =>
    have hle : p.tickets.length ≤ n.ticket := List.getElem?_eq_none_iff.mp hk
    have ht : p.ticket n.ticket = default := by simp [ticket, List.getD, hk]
    have hm : p.modifyTicket n.ticket Ticket.claim = p := by
      simp [modifyTicket, List.modify_eq_self hle]
    rw [cancel, sendCancel_of_none (by rw [ht]; rfl) (by rw [ht]; rfl), hm]
    rfl
  | some k =>
    have ho : k.openId? = none := by
      have : p.tables.openId? n.ticket = k.openId? := by simp [Tables.openId?, tables, hk]
      rw [← this, hn]
    have hc : k.isClaimable = false := by
      have hs : k.Sound := h.sound k (List.mem_of_getElem? hk)
      rw [hs, ho]
      rfl
    rw [cancel, sendCancel_of_not_claimable (by rw [ticket_eq_of_getElem? hk, hc])]
    rfl

/-- The cancellation of an open request takes it out of the table and is written. -/
theorem tables_cancel_of_some (h : p.tables.Coherent ids) {n : Node} {id : MessageId}
    (hn : p.tables.openId? n.ticket = some id) :
    (p.cancel n).tables =
      { p.tables.post (.cancellation id) with
        pending := p.pending.filter (·.id != id)
        tickets := ((p.tickets.modify n.ticket Ticket.claim).modify n.ticket Ticket.lose).modify
          n.ticket (·.cancelFrom n.depth) } := by
  obtain ⟨k, hk, ho⟩ := Option.bind_eq_some_iff.mp hn
  obtain ⟨hc, ha⟩ := Ticket.eq_of_openId? ho
  -- the only entry of this id is the one of this ticket, so that is the reply that is lost
  obtain ⟨r, hr, hrt⟩ := Option.map_eq_some_iff.mp ((h.find?_pending _ _).mpr hn)
  have hq : (p.modifyTicket n.ticket Ticket.claim).closed = false := h.live
  rw [← ticket_eq_of_getElem? hk] at hc ha
  rw [cancel, sendCancel_of_some hc ha]
  have hr' : (p.modifyTicket n.ticket Ticket.claim).pending.find? (·.id == id) = some r := hr
  have hd := tables_runAction hq id
  rw [tables_dropPending_of_some hr', hrt] at hd
  exact congrArg (Tables.modifyTicket · n.ticket (·.cancelFrom n.depth)) hd

theorem frame_cancel (h : p.tables.Coherent ids) (n : Node) :
    ∃ ts ps ms, (p.cancel n).tables =
      { p.tables with tickets := ts, pending := ps, outgoing := ms } := by
  cases hn : p.tables.openId? n.ticket with
  | none => exact ⟨_, _, _, tables_cancel_of_none h hn⟩
  | some id => exact ⟨_, _, _, tables_cancel_of_some h hn⟩

theorem closes_cancel (h : p.tables.Coherent ids) (n : Node) :
    Tables.Closes p.tables (p.cancel n).tables fun u _ => u == n.ticket := by
  cases hn : p.tables.openId? n.ticket with
  | none =>
    rw [tables_cancel_of_none h hn]
    refine ⟨?_, ?_, ?_, ?_, rfl, rfl⟩
    · exact List.length_modify ..
    · exact Tables.sound_modify _ _ fun k hk => hk.cancelFrom n.depth
    · intro u
      have hu : Tables.openId? { p.tables with
          tickets := p.tickets.modify n.ticket (·.cancelFrom n.depth) } u = p.tables.openId? u :=
        Tables.bind_modify_of_eq _ _ _ fun k => k.openId?_cancelFrom n.depth
      rw [hu, Tables.filter_ne]
      split
      next hun => rw [hun, hn]
      next => rfl
    · refine (List.filter_eq_self.mpr ?_).symm
      intro r hr
      have hro := h.openId?_of_mem hr
      have hne : r.ticket ≠ n.ticket := by
        intro he
        rw [he, hn] at hro
        exact absurd hro (by simp)
      simpa using hne
  | some id =>
    rw [tables_cancel_of_some h hn]
    refine h.closes_ticket (h.own _ _ hn) ?_ ?_ ?_ rfl rfl rfl
    · simp [tables]
    · intro hs
      refine Tables.sound_modify _ _ (fun k hk => hk.cancelFrom n.depth) ?_
      refine Tables.sound_modify _ _ (fun k hk => hk.lose) ?_
      exact Tables.sound_modify _ _ (fun k _ => Ticket.Sound.claim k) hs
    · intro u
      rw [Tables.openId?, Tables.bind_modify_of_eq _ _ _ (fun k => k.openId?_cancelFrom n.depth),
        Tables.bind_modify_of_eq _ _ _ Ticket.openId?_lose,
        Tables.bind_modify_of_none _ _ _ Ticket.openId?_claim]
      rfl

theorem arrived?_cancel (h : p.tables.Coherent ids) (n : Node) (u : Nat) :
    (p.cancel n).tables.arrived? u = p.tables.arrived? u := by
  cases hn : p.tables.openId? n.ticket with
  | none =>
    rw [tables_cancel_of_none h hn]
    exact Tables.bind_modify_of_eq _ _ _ fun k => k.arrived?_cancelFrom n.depth
  | some id =>
    rw [tables_cancel_of_some h hn]
    refine (Tables.bind_modify_of_eq _ _ _ fun k => k.arrived?_cancelFrom n.depth).trans ?_
    refine (Tables.bind_modify_of_eq _ _ _ Ticket.arrived?_lose).trans ?_
    exact Tables.bind_modify_of_eq _ _ _ Ticket.arrived?_claim

/-- Cancelling writes one message at most: the cancellation of an open request. -/
theorem outgoing_cancel (h : p.tables.Coherent ids) (n : Node) :
    (p.cancel n).outgoing = p.outgoing ++
      match p.tables.openId? n.ticket with
      | none => []
      | some id => if p.listening then [.cancellation id] else [] := by
  cases hn : p.tables.openId? n.ticket with
  | none => exact (congrArg Tables.outgoing (tables_cancel_of_none h hn)).trans (by simp [tables])
  | some id => exact congrArg Tables.outgoing (tables_cancel_of_some h hn)

theorem written_cancel (h : p.tables.Coherent ids) (n : Node) :
    ∃ ms, (p.cancel n).outgoing = p.outgoing ++ ms ∧
      ∀ m ∈ ms, ∃ id, p.tables.openId? n.ticket = some id ∧ m = .cancellation id := by
  refine ⟨_, outgoing_cancel h n, fun m hm => ?_⟩
  cases ho : p.tables.openId? n.ticket with
  | none => simp [ho] at hm
  | some id =>
    cases hl : p.listening with
    | false => simp [ho, hl] at hm
    | true =>
      rw [ho, hl] at hm
      exact ⟨id, rfl, List.mem_singleton.mp hm⟩

theorem tables_handleResponse_of_none {id : Option MessageId} {o : Outcome}
    (h : ∀ i, id = some i → p.pending.find? (·.id == i) = none) :
    (p.handleResponse id o).tables = p.tables := by
  cases id with
  | none => cases o <;> rfl
  | some i => simp [handleResponse, h i rfl]

theorem tables_handleResponse_of_some {id : MessageId} {o : Outcome} {r : PendingRequest}
    (h : p.pending.find? (·.id == id) = some r) :
    (p.handleResponse (some id) o).tables =
      { p.tables with
        pending := p.pending.filter (·.id != id)
        tickets := (p.tickets.modify r.ticket Ticket.complete).modify r.ticket
          ({ · with reply := .arrived o.reply }) } := by
  have hq : ∀ (c : Bool) (q q' : Peer), q'.tables = q.tables →
      (if c then q else q').tables = q.tables := by
    rintro (_ | _) q q' hq
    · exact hq
    · rfl
  simp only [handleResponse, h, deliver]
  refine (hq _ _ _ (tables_log _ _ _)).trans ?_
  cases o <;> rfl

theorem frame_handleResponse (p : Peer) (id : Option MessageId) (o : Outcome) :
    ∃ ts ps, (p.handleResponse id o).tables = { p.tables with tickets := ts, pending := ps } := by
  cases hf : id.bind fun i => p.pending.find? (·.id == i) with
  | none =>
    exact ⟨_, _, tables_handleResponse_of_none fun i hi => by simpa [hi] using hf⟩
  | some r =>
    obtain ⟨i, rfl, hr⟩ := Option.bind_eq_some_iff.mp hf
    exact ⟨_, _, tables_handleResponse_of_some hr⟩

theorem closes_handleResponse (h : p.tables.Coherent ids) (id : Option MessageId) (o : Outcome) :
    Tables.Closes p.tables (p.handleResponse id o).tables fun _ i => id == some i := by
  cases hf : id.bind fun i => p.pending.find? (·.id == i) with
  | none =>
    have hno : ∀ i, id = some i → p.pending.find? (·.id == i) = none := by
      intro i hi
      simpa [hi] using hf
    have hne : ∀ r ∈ p.pending, id ≠ some r.id := by
      intro r hr hi
      exact absurd (List.find?_eq_none.mp (hno _ hi) r hr) (by simp)
    rw [tables_handleResponse_of_none hno]
    refine ⟨rfl, fun hs => hs, ?_, ?_, rfl, rfl⟩
    · intro u
      cases hu : p.tables.openId? u with
      | none => rfl
      | some i =>
        obtain ⟨r, hr, -, hri⟩ := (h.table _ _).mpr hu
        have : id ≠ some i := hri ▸ hne r hr
        simp [Option.filter, this]
    · refine (List.filter_eq_self.mpr ?_).symm
      intro r hr
      simpa using hne r hr
  | some r =>
    obtain ⟨i, rfl, hr⟩ := Option.bind_eq_some_iff.mp hf
    have hri : r.id = i := by simpa using List.find?_some hr
    have hro := h.openId?_of_mem (List.mem_of_find?_eq_some hr)
    rw [hri] at hro
    rw [tables_handleResponse_of_some hr]
    have hc : Tables.Closes p.tables
        { p.tables with
          pending := p.pending.filter (·.id != i)
          tickets := (p.tickets.modify r.ticket Ticket.complete).modify r.ticket
            ({ · with reply := .arrived o.reply }) } fun u _ => u == r.ticket := by
      refine h.closes_ticket (h.own _ _ hro) ?_ ?_ ?_ rfl rfl rfl
      · simp [tables]
      · intro hs
        refine Tables.sound_modify _ _ (fun k hk => hk) ?_
        exact Tables.sound_modify _ _ (fun k _ => Ticket.Sound.complete k) hs
      · intro u
        rw [Tables.openId?, Tables.bind_modify_of_eq _ _ _ (fun k => k.openId?_reply _),
          Tables.bind_modify_of_none _ _ _ Ticket.openId?_complete]
        rfl
    -- among open requests the ticket and the id say the same
    refine h.closes_congr hc fun u j hu => ?_
    apply Bool.eq_iff_iff.mpr
    rw [beq_iff_eq, beq_iff_eq, Option.some.injEq]
    constructor
    · rintro rfl
      exact Option.some.inj (hro.symm.trans hu)
    · rintro rfl
      exact h.ticket_eq (h.own _ _ hu) (h.own _ _ hro)

/-- A reply arrives on the ticket of the request that a response answers, and on no other. -/
theorem arrived?_handleResponse (h : p.tables.Coherent ids) (id : Option MessageId) (o : Outcome)
    (u : Nat) :
    (p.handleResponse id o).tables.arrived? u =
      if id.isSome ∧ p.tables.openId? u = id then some o.reply else p.tables.arrived? u := by
  cases hf : id.bind fun i => p.pending.find? (·.id == i) with
  | none =>
    have hno : ∀ i, id = some i → p.pending.find? (·.id == i) = none := by
      intro i hi
      simpa [hi] using hf
    rw [tables_handleResponse_of_none hno, if_neg]
    rintro ⟨hi, hu⟩
    obtain ⟨i, rfl⟩ := Option.isSome_iff_exists.mp hi
    obtain ⟨r, hr, -, hri⟩ := (h.table _ _).mpr hu
    exact absurd (List.find?_eq_none.mp (hno i rfl) r hr) (by simp [hri])
  | some r =>
    obtain ⟨i, rfl, hr⟩ := Option.bind_eq_some_iff.mp hf
    have hri : r.id = i := by simpa using List.find?_some hr
    have hro := h.openId?_of_mem (List.mem_of_find?_eq_some hr)
    rw [hri] at hro
    obtain ⟨k, hk, -⟩ := Option.bind_eq_some_iff.mp hro
    have hk' : p.tickets[r.ticket]? = some k := hk
    rw [tables_handleResponse_of_some hr]
    simp only [Tables.arrived?, List.getElem?_modify]
    by_cases he : r.ticket = u
    · subst he
      simp [hk', hro, Ticket.arrived?]
    · have hne : ¬ p.tables.openId? u = some i := by
        intro hu
        exact he (h.ticket_eq (h.own _ _ hro) (h.own _ _ hu))
      rw [if_neg fun hu => hne hu.2]
      simp [he, tables]

/-- Giving up a request, which `abandonPending` does with every pending one. -/
def giveUp (p : Peer) (r : PendingRequest) : Peer := (p.dropPending r.id).complete r.ticket

theorem tables_giveUp (p : Peer) (r : PendingRequest) :
    ∃ ts, (p.giveUp r).tables =
        { p.tables with
          tickets := ts.modify r.ticket Ticket.complete
          pending := p.pending.filter (·.id != r.id) } ∧
      (ts = p.tickets ∨ ∃ v, ts = p.tickets.modify v Ticket.lose) := by
  cases h : p.pending.find? (·.id == r.id) with
  | none =>
    have hall : ∀ s ∈ p.pending, (s.id != r.id) = true := by
      intro s hs
      simpa using List.find?_eq_none.mp h s hs
    have hd : p.dropPending r.id = p := by simp [dropPending, h]
    refine ⟨p.tickets, ?_, .inl rfl⟩
    rw [giveUp, hd, List.filter_eq_self.mpr hall]
    rfl
  | some s =>
    refine ⟨_, ?_, .inr ⟨s.ticket, rfl⟩⟩
    exact congrArg (·.modifyTicket r.ticket Ticket.complete) (tables_dropPending_of_some h)

theorem closes_giveUp (h : p.tables.Coherent ids) {r : PendingRequest}
    (hr : ids[r.ticket]? = some r.id) :
    Tables.Closes p.tables (p.giveUp r).tables fun u _ => u == r.ticket := by
  obtain ⟨ts, he, hts⟩ := tables_giveUp p r
  have hlen : ts.length = p.tickets.length := by
    rcases hts with rfl | ⟨v, rfl⟩
    · rfl
    · exact List.length_modify ..
  have hopen : ∀ u : Nat, ts[u]?.bind Ticket.openId? = p.tables.openId? u := by
    intro u
    rcases hts with rfl | ⟨v, rfl⟩
    · rfl
    · exact Tables.bind_modify_of_eq _ _ _ Ticket.openId?_lose
  rw [he]
  refine h.closes_ticket hr ?_ ?_ ?_ rfl rfl rfl
  · simpa [tables] using hlen
  · intro hs
    refine Tables.sound_modify _ _ (fun k _ => Ticket.Sound.complete k) ?_
    rcases hts with rfl | ⟨v, rfl⟩
    · exact hs
    · exact Tables.sound_modify _ _ (fun k hk => hk.lose) hs
  · intro u
    rw [← hopen u]
    exact Tables.bind_modify_of_none _ _ _ Ticket.openId?_complete

/-- What giving up several requests, one after the other, closes and leaves alone. -/
private theorem foldl_giveUp (rs : List PendingRequest) (h : p.tables.Coherent ids)
    (hrs : ∀ r ∈ rs, ids[r.ticket]? = some r.id) :
    let q := rs.foldl giveUp p
    Tables.Closes p.tables q.tables (fun u _ => rs.any (u == ·.ticket)) ∧
      ∃ ts ps, q.tables = { p.tables with tickets := ts, pending := ps } := by
  induction rs generalizing p with
  | nil => exact ⟨.of_eq rfl rfl rfl rfl, _, _, rfl⟩
  | cons r rs ih =>
    have hc := closes_giveUp h (hrs r (by simp))
    obtain ⟨hc', ts, ps, he'⟩ := ih (h.closes hc) fun s hs => hrs s (by simp [hs])
    refine ⟨?_, ts, ps, ?_⟩
    · simpa using Tables.Closes.trans hc hc'
    · obtain ⟨_, he, -⟩ := tables_giveUp p r
      exact he'.trans (by rw [he])

theorem closes_abandonPending (h : p.tables.Coherent ids) :
    Tables.Closes p.tables p.abandonPending.tables (fun _ _ => true) ∧
      ∃ ts ps, p.abandonPending.tables = { p.tables with tickets := ts, pending := ps } := by
  have hq : ∀ q : Peer, q.tables = p.tables →
      Tables.Closes p.tables (p.pending.foldl giveUp q).tables (fun _ _ => true) ∧
        ∃ ts ps, (p.pending.foldl giveUp q).tables =
          { p.tables with tickets := ts, pending := ps } := by
    intro q hqt
    have hown : ∀ r ∈ p.pending, ids[r.ticket]? = some r.id := fun r hr =>
      h.own _ _ (h.openId?_of_mem hr)
    obtain ⟨hc, he⟩ := foldl_giveUp (p := q) p.pending (hqt ▸ h) hown
    rw [hqt] at hc he
    refine ⟨h.closes_congr hc fun u id hu => ?_, he⟩
    obtain ⟨r, hr, hru, -⟩ := (h.table u id).mpr hu
    exact List.any_eq_true.mpr ⟨r, hr, by simp [hru]⟩
  cases hn : p.pending.length == 0 with
  | true =>
    have he : p.abandonPending = p.pending.foldl giveUp p := by
      simp only [abandonPending, hn]
      rfl
    exact he ▸ hq p rfl
  | false =>
    have he : p.abandonPending = p.pending.foldl giveUp
        (p.log .debug s!"Abandoning {p.pending.length} pending requests") := by
      simp only [abandonPending, hn]
      rfl
    exact he ▸ hq _ (tables_log _ _ _)

/-- Nothing is pending after it, whether or not the tables agree. -/
theorem pending_abandonPending (p : Peer) : p.abandonPending.pending = [] := by
  have hall : ∀ (rs : List PendingRequest) (q : Peer),
      (rs.foldl giveUp q).pending = q.pending.filter fun s => rs.all (s.id != ·.id) := by
    intro rs
    induction rs with
    | nil => exact fun q => (List.filter_eq_self.mpr fun _ _ => rfl).symm
    | cons r rs ih =>
      intro q
      obtain ⟨ts, ht, -⟩ := tables_giveUp q r
      have hp : (q.giveUp r).pending = q.pending.filter (·.id != r.id) :=
        congrArg Tables.pending ht
      rw [List.foldl_cons, ih, hp, List.filter_filter]
      simp [Bool.and_comm]
  have hnone : (p.pending.filter fun s => p.pending.all (s.id != ·.id)) = [] := by
    rw [List.filter_eq_nil_iff]
    intro s hs hne
    simpa using List.all_eq_true.mp hne s hs
  unfold abandonPending
  simp only
  split
  · exact (hall p.pending p).trans hnone
  · exact (hall p.pending (p.log _ _)).trans hnone

private theorem modify_concat (l : List Ticket) (k : Ticket) (f : Ticket → Ticket) :
    (l ++ [k]).modify l.length f = l ++ [f k] := by
  simp [List.modify_eq_take_drop]

/-- A request that is sent gets a ticket of its own and becomes pending; one that cannot be sent
leaves a ticket that is closed. -/
theorem tables_request (p : Peer) (method : String) (params : Payload) :
    ∃ k : Ticket, (p.request method params).2.tables =
        { p.tables with
          codec := p.codec.drawId.2
          outgoing := p.outgoing ++
            if p.listening then [.request p.codec.drawId.1 method params] else []
          tickets := p.tickets ++ [k]
          pending := p.pending.filter (·.id != p.codec.drawId.1) ++
            if p.listening then [⟨p.codec.drawId.1, method, p.tickets.length⟩] else [] } ∧
      k.Sound ∧ k.arrived? = none ∧
      (k.openId? = if p.listening then some p.codec.drawId.1 else none) ∧
      k.Settled ∧ k.cancelledFrom = none := by
  generalize hd : p.codec.drawId = d
  cases hl : p.listening with
  | true =>
    refine ⟨{ action := some (.cancelRequest d.1) }, ?_, rfl, rfl, rfl, rfl, rfl⟩
    simp [request, hd, addTicket, addPending, erasePending, post, hl, wake, tables]
  | false =>
    let k : Ticket := { action := some (.cancelRequest d.1) }
    refine ⟨k.lose.complete, ?_, Ticket.Sound.complete _, rfl, rfl, rfl, rfl⟩
    have hf : (p.pending.filter (·.id != d.1)).find? (·.id == d.1) = none := by
      simp [List.find?_eq_none]
    have hm : ((p.tickets ++ [k]).modify p.tickets.length Ticket.lose).modify p.tickets.length
        Ticket.complete = p.tickets ++ [k.lose.complete] := by
      rw [modify_concat, modify_concat]
    simp [request, hd, addTicket, addPending, erasePending, post, hl, log, write, record,
      dropPending, modifyTicket, tables, hf]
    exact hm

variable (method : String) (params : Payload)

theorem openId?_request (u : Nat) :
    (p.request method params).2.tables.openId? u =
      if u = p.tickets.length then if p.listening then some p.codec.drawId.1 else none
      else p.tables.openId? u := by
  obtain ⟨k, he, -, -, hk, -⟩ := tables_request p method params
  rw [he, ← hk]
  exact Tables.bind_append _ _ _ _

theorem arrived?_request (u : Nat) :
    (p.request method params).2.tables.arrived? u = p.tables.arrived? u := by
  obtain ⟨k, he, -, hk, -⟩ := tables_request p method params
  rw [he]
  refine (Tables.bind_append _ _ _ _).trans ?_
  split
  next hu =>
    rw [hk]
    simp [Tables.arrived?, tables, hu]
  next => rfl

/-- The requests before one under a new id do not have this id. -/
theorem filter_pending_of_notMem (h : p.tables.Coherent ids) {id : MessageId} (hid : id ∉ ids) :
    p.pending.filter (·.id != id) = p.pending := by
  apply List.filter_eq_self.mpr
  intro r hr
  have hr' := List.mem_of_getElem? (h.own _ _ (h.openId?_of_mem hr))
  exact bne_iff_ne.mpr fun hri => hid (hri ▸ hr')

theorem coherent_request (h : p.tables.Coherent ids) (hid : p.codec.drawId.1 ∉ ids) :
    (p.request method params).2.tables.Coherent (ids ++ [p.codec.drawId.1]) := by
  have ho := openId?_request (p := p) method params
  obtain ⟨k, he, hk, -⟩ := tables_request p method params
  have hlen : ids.length = p.tickets.length := h.length
  rw [filter_pending_of_notMem h hid] at he
  rw [he] at ho ⊢
  refine ⟨?_, ?_, ?_, ?_, ?_, ?_, h.owned, h.live⟩
  · simp [hlen]
  · exact List.nodup_append.mpr ⟨h.distinct, by simp, by
      rintro i hi j hj rfl
      exact hid (List.mem_singleton.mp hj ▸ hi)⟩
  · intro l hl
    rcases List.mem_append.mp hl with hl | hl
    · exact h.sound l hl
    · rw [List.mem_singleton.mp hl]
      exact hk
  · intro u id hu
    rw [ho] at hu
    split at hu
    next hul =>
      split at hu
      next => simp [hul, ← hlen, Option.some.inj hu]
      next => exact absurd hu (by simp)
    next =>
      have hid := h.own u id hu
      rwa [List.getElem?_append_left (List.getElem?_eq_some_iff.mp hid).1]
  · intro u id
    rw [ho]
    have hold := h.table u id
    by_cases hul : u = p.tickets.length
    · have hno : ∀ r ∈ p.pending, r.ticket = u → ¬ r.id = id := by
        intro r hr hru hri
        exact absurd (Tables.lt_of_openId? (hold.mp ⟨r, hr, hru, hri⟩)) (by simp [hul, tables])
      subst hul
      cases p.listening <;> simp_all
    · have hne : ¬ p.tickets.length = u := fun hu => hul hu.symm
      rw [if_neg hul, ← hold]
      cases p.listening <;> simp [tables, or_and_right, exists_or, hne]
  · have hs : (p.pending.map (·.id)).Nodup := h.single
    cases p.listening with
    | false => simpa using hs
    | true =>
      rw [List.map_append]
      refine List.nodup_append.mpr ⟨hs, by simp, ?_⟩
      rintro i hi j hj rfl
      obtain ⟨r, hr, rfl⟩ := List.mem_map.mp hi
      have hmem := List.mem_of_getElem? (h.own _ _ (h.openId?_of_mem hr))
      rw [show r.id = p.codec.drawId.1 by simpa using hj] at hmem
      exact hid hmem

end Peer
end RpcPeer
