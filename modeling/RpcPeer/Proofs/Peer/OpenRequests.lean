import RpcPeer.Proofs.Peer.Tables

/-! Requests whose cancellation could still be sent, and the pending table. -/
namespace RpcPeer

namespace Ticket

/-- The id of the request while its cancellation can still be sent. -/
def openId? (k : Ticket) : Option MessageId :=
  if k.isClaimable then
    match k.action with
    | some (.cancelRequest id) => some id
    | _ => none
  else none

def arrived? (k : Ticket) : Option (Except ResponseError Payload) :=
  match k.reply with
  | .arrived r => some r
  | _ => none

/-- While the cancellation can be sent it is that of a request. -/
def Sound (k : Ticket) : Prop := k.isClaimable = k.openId?.isSome

/-- A reply is waited for exactly as long as the cancellation can be sent. -/
def Settled (k : Ticket) : Prop := k.reply.isWaiting = k.openId?.isSome

theorem eq_of_openId? {k : Ticket} {id : MessageId} (h : k.openId? = some id) :
    k.isClaimable = true ∧ k.action = some (.cancelRequest id) := by
  unfold openId? at h
  split at h
  next hc =>
    split at h
    next i ha =>
      rw [Option.some.inj h] at ha
      exact ⟨hc, ha⟩
    next => exact absurd h (by simp)
  next => exact absurd h (by simp)

@[simp] theorem openId?_claim (k : Ticket) : k.claim.openId? = none := by
  simp [openId?, claim, isClaimable]

@[simp] theorem openId?_complete (k : Ticket) : k.complete.openId? = none := by
  simp [openId?, complete, isClaimable]

@[simp] theorem openId?_cancelFrom (k : Ticket) (d : Nat) : (k.cancelFrom d).openId? = k.openId? :=
  rfl

@[simp] theorem openId?_lose (k : Ticket) : k.lose.openId? = k.openId? := by
  unfold lose
  split <;> rfl

@[simp] theorem openId?_reply (k : Ticket) (r : Reply) :
    { k with reply := r }.openId? = k.openId? :=
  rfl

@[simp] theorem arrived?_claim (k : Ticket) : k.claim.arrived? = k.arrived? := rfl

@[simp] theorem arrived?_cancelFrom (k : Ticket) (d : Nat) :
    (k.cancelFrom d).arrived? = k.arrived? := rfl

@[simp] theorem arrived?_lose (k : Ticket) : k.lose.arrived? = k.arrived? := by
  unfold lose
  split
  next h => cases hr : k.reply <;> simp_all [arrived?, Reply.isWaiting]
  next => rfl

theorem Sound.claim (k : Ticket) : k.claim.Sound := by
  rw [Sound, openId?_claim]
  simp [isClaimable, Ticket.claim]

theorem Sound.complete (k : Ticket) : k.complete.Sound := by
  rw [Sound, openId?_complete]
  simp [isClaimable, Ticket.complete]

theorem Sound.cancelFrom {k : Ticket} (h : k.Sound) (d : Nat) : (k.cancelFrom d).Sound := h

theorem Sound.lose {k : Ticket} (h : k.Sound) : k.lose.Sound := by
  unfold Ticket.lose
  split
  · exact h
  · exact h

end Ticket

namespace Tables

def openId? (t : Tables) (u : Nat) : Option MessageId := t.tickets[u]?.bind Ticket.openId?

def arrived? (t : Tables) (u : Nat) : Option (Except ResponseError Payload) :=
  t.tickets[u]?.bind Ticket.arrived?

theorem lt_of_openId? {t : Tables} {u : Nat} {id : MessageId} (h : t.openId? u = some id) :
    u < t.tickets.length := by
  obtain ⟨k, hk, -⟩ := Option.bind_eq_some_iff.mp h
  exact (List.getElem?_eq_some_iff.mp hk).1

theorem filter_ne {α : Type} (o : Option α) (u v : Nat) :
    o.filter (fun _ => !(u == v)) = if u = v then none else o := by
  by_cases h : u = v <;> cases o <;> simp [Option.filter, h]

/-- The requests of a peer are coherent: the pending table lists the open ones, and `ids` are the
ids under which the requests were sent, in the order of their tickets. -/
structure Coherent (t : Tables) (ids : List MessageId) : Prop where
  length : ids.length = t.tickets.length
  distinct : ids.Nodup
  sound : ∀ k ∈ t.tickets, k.Sound
  own : ∀ u id, t.openId? u = some id → ids[u]? = some id
  table : ∀ u id, (∃ r ∈ t.pending, r.ticket = u ∧ r.id = id) ↔ t.openId? u = some id
  single : (t.pending.map (·.id)).Nodup
  owned : t.owned = true
  live : t.closed = false

/-- Going from `t` to `t'` closes the open requests that `ends` names, and does nothing else to
requests. -/
structure Closes (t t' : Tables) (ends : Nat → MessageId → Bool) : Prop where
  length : t'.tickets.length = t.tickets.length
  sound : (∀ k ∈ t.tickets, k.Sound) → ∀ k ∈ t'.tickets, k.Sound
  openId? : ∀ u, t'.openId? u = (t.openId? u).filter (!ends u ·)
  pending : t'.pending = t.pending.filter fun r => !ends r.ticket r.id
  owned : t'.owned = t.owned
  closed : t'.closed = t.closed

theorem Closes.of_eq {t t' : Tables} (ht : t'.tickets = t.tickets) (hp : t'.pending = t.pending)
    (ho : t'.owned = t.owned) (hc : t'.closed = t.closed) : Closes t t' fun _ _ => false where
  length := by rw [ht]
  sound := by rw [ht]; exact id
  openId? := by
    intro u
    have hu : t'.openId? u = t.openId? u := by simp only [Tables.openId?, ht]
    rw [hu]
    cases t.openId? u <;> rfl
  pending := hp.trans (List.filter_eq_self.mpr fun _ _ => rfl).symm
  owned := ho
  closed := hc

theorem Closes.trans {t t' t'' : Tables} {e e' : Nat → MessageId → Bool} (h : Closes t t' e)
    (h' : Closes t' t'' e') : Closes t t'' fun u id => e u id || e' u id where
  length := h'.length.trans h.length
  sound := fun hs => h'.sound (h.sound hs)
  openId? := by
    intro u
    rw [h'.openId?, h.openId?]
    cases t.openId? u with
    | none => rfl
    | some id => cases he : e u id <;> simp [Option.filter, he]
  pending := by
    rw [h'.pending, h.pending, List.filter_filter]
    refine List.filter_congr fun r _ => ?_
    cases e r.ticket r.id <;> cases e' r.ticket r.id <;> rfl
  owned := h'.owned.trans h.owned
  closed := h'.closed.trans h.closed

namespace Coherent

variable {t t' : Tables} {ids : List MessageId} {ends : Nat → MessageId → Bool}

theorem openId?_of_mem (h : Coherent t ids) {r : PendingRequest} (hr : r ∈ t.pending) :
    t.openId? r.ticket = some r.id :=
  (h.table _ _).mp ⟨r, hr, rfl, rfl⟩

theorem ticket_eq (h : Coherent t ids) {u v : Nat} {id : MessageId} (hu : ids[u]? = some id)
    (hv : ids[v]? = some id) : u = v := by
  obtain ⟨hul, hue⟩ := List.getElem?_eq_some_iff.mp hu
  obtain ⟨hvl, hve⟩ := List.getElem?_eq_some_iff.mp hv
  exact (List.getElem_inj h.distinct).mp (hue.trans hve.symm)

/-- Of the pending requests only that of ticket `u` has its id. -/
theorem id_eq_iff (h : Coherent t ids) {u : Nat} {id : MessageId} (hu : ids[u]? = some id)
    {r : PendingRequest} (hr : r ∈ t.pending) : r.id = id ↔ r.ticket = u := by
  have hro := h.own _ _ (h.openId?_of_mem hr)
  constructor
  · intro he
    subst he
    exact h.ticket_eq hro hu
  · intro he
    subst he
    exact Option.some.inj (hro.symm.trans hu)

/-- Looking up an id in the pending table finds the ticket on which it is open. -/
theorem find?_pending (h : Coherent t ids) (id : MessageId) (u : Nat) :
    (t.pending.find? (·.id == id)).map (·.ticket) = some u ↔ t.openId? u = some id := by
  rw [Option.map_eq_some_iff]
  constructor
  · rintro ⟨r, hr, rfl⟩
    have hri : r.id = id := by simpa using List.find?_some hr
    exact hri ▸ h.openId?_of_mem (List.mem_of_find?_eq_some hr)
  · intro ho
    obtain ⟨r, hr, -, hri⟩ := (h.table _ _).mpr ho
    cases hf : t.pending.find? (·.id == id) with
    | none => exact absurd (List.find?_eq_none.mp hf r hr) (by simp [hri])
    | some x =>
      have hx : x.id = id := by simpa using List.find?_some hf
      exact ⟨x, rfl, (h.id_eq_iff (h.own _ _ ho) (List.mem_of_find?_eq_some hf)).mp hx⟩

/-- Only what is said of open requests matters. -/
theorem closes_congr (h : Coherent t ids) {e e' : Nat → MessageId → Bool} (hc : Closes t t' e)
    (he : ∀ u id, t.openId? u = some id → e u id = e' u id) : Closes t t' e' where
  length := hc.length
  sound := hc.sound
  openId? := by
    intro u
    rw [hc.openId?]
    cases hu : t.openId? u with
    | none => rfl
    | some id => simp [Option.filter, he u id hu]
  pending := by
    rw [hc.pending]
    exact List.filter_congr fun r hr => by rw [he _ _ (h.openId?_of_mem hr)]
  owned := hc.owned
  closed := hc.closed

/-- Closing the request of one ticket and taking its id out of the table. -/
theorem closes_ticket (h : Coherent t ids) {v : Nat} {id : MessageId} (hv : ids[v]? = some id)
    (hlen : t'.tickets.length = t.tickets.length)
    (hsound : (∀ k ∈ t.tickets, k.Sound) → ∀ k ∈ t'.tickets, k.Sound)
    (hopen : ∀ u, t'.openId? u = if u = v then none else t.openId? u)
    (hp : t'.pending = t.pending.filter (·.id != id)) (ho : t'.owned = t.owned)
    (hc : t'.closed = t.closed) : Closes t t' fun u _ => u == v where
  length := hlen
  sound := hsound
  openId? := by
    intro u
    rw [hopen, filter_ne]
  pending := by
    rw [hp]
    refine List.filter_congr fun r hr => ?_
    have := h.id_eq_iff hv hr
    rw [bne, Bool.not_inj_iff]
    exact Bool.eq_iff_iff.mpr (by simpa using this)
  owned := ho
  closed := hc

theorem closes (h : Coherent t ids) (hc : Closes t t' ends) : Coherent t' ids where
  length := h.length.trans hc.length.symm
  distinct := h.distinct
  sound := hc.sound h.sound
  own := by
    intro u id hu
    rw [hc.openId?, Option.filter_eq_some_iff] at hu
    exact h.own u id hu.1
  table := by
    intro u id
    rw [hc.openId?, hc.pending, Option.filter_eq_some_iff, ← h.table]
    constructor
    · rintro ⟨r, hr, rfl, rfl⟩
      obtain ⟨hm, he⟩ := List.mem_filter.mp hr
      exact ⟨⟨r, hm, rfl, rfl⟩, he⟩
    · rintro ⟨⟨r, hm, rfl, rfl⟩, he⟩
      exact ⟨r, List.mem_filter.mpr ⟨hm, he⟩, rfl, rfl⟩
  single := by
    rw [hc.pending]
    exact h.single.sublist (List.filter_sublist.map _)
  owned := hc.owned.trans h.owned
  live := hc.closed.trans h.live

end Coherent

section Modify

variable (l : List Ticket) (i u : Nat) {f : Ticket → Ticket}

/-- A change that keeps what is read off a ticket cannot be read off the tickets. -/
theorem bind_modify_of_eq {α : Type} {g : Ticket → Option α} (hf : ∀ k, g (f k) = g k) :
    (l.modify i f)[u]?.bind g = l[u]?.bind g := by
  rw [List.getElem?_modify]
  cases l[u]? with
  | none => rfl
  | some k => by_cases h : i = u <;> simp [h, hf]

/-- A change that closes a ticket closes that one only. -/
theorem bind_modify_of_none {α : Type} {g : Ticket → Option α} (hf : ∀ k, g (f k) = none) :
    (l.modify i f)[u]?.bind g = if u = i then none else l[u]?.bind g := by
  rw [List.getElem?_modify]
  cases l[u]? with
  | none => simp
  | some k =>
    by_cases h : i = u
    · simp [h, hf]
    · have h' : u ≠ i := fun e => h e.symm
      simp [h, h']

theorem sound_modify (hf : ∀ k : Ticket, k.Sound → (f k).Sound) (hl : ∀ k ∈ l, k.Sound) :
    ∀ k ∈ l.modify i f, k.Sound := by
  intro k hk
  obtain ⟨v, hv⟩ := List.mem_iff_getElem?.mp hk
  rw [List.getElem?_modify] at hv
  obtain ⟨k', hk', he⟩ := Option.map_eq_some_iff.mp hv
  have hs : k'.Sound := hl k' (List.mem_of_getElem? hk')
  subst he
  split
  · exact hf k' hs
  · exact hs

end Modify

theorem bind_append {α : Type} (l : List Ticket) (k : Ticket) (g : Ticket → Option α) (u : Nat) :
    (l ++ [k])[u]?.bind g = if u = l.length then g k else l[u]?.bind g := by
  rcases Nat.lt_trichotomy u l.length with hu | hu | hu
  · rw [List.getElem?_append_left hu, if_neg (Nat.ne_of_lt hu)]
  · simp [hu]
  · rw [if_neg (Nat.ne_of_gt hu), List.getElem?_eq_none (by simp; omega),
      List.getElem?_eq_none (Nat.le_of_lt hu)]

end Tables
end RpcPeer
