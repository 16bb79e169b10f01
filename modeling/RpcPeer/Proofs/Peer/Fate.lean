import RpcPeer.Proofs.Peer.Runs

/-! The fate of an outgoing request is decided by what ends it first. -/
namespace RpcPeer
open Moves Host

/-- A request that is made in the course of a run. -/
structure Sending {μ : Type} [Moves μ] (ms : List μ) where
  before : List μ
  method : String
  params : Payload
  after : List μ
  split : ms = before ++ act (.request method params) :: after

namespace Sending

variable {σ μ : Type} [Moves μ] [Host σ μ] {ms : List μ} (q : Sending ms) (s : σ)

def start : List μ := q.before ++ [act (.request q.method q.params)]

def id : MessageId := (peer (run s q.before)).codec.drawId.1

def ticket : Nat := (peer (run s q.before)).tickets.length

/-- Somebody takes the message of the request. -/
def Accepted : Prop := (peer (run s q.before)).listening = true

/-- None of these moves ends the request. -/
def Spared (l : List μ) : Prop := ∀ m ∈ l, ends (q.ticket s) (q.id s) m = false

/-- A node of the request is cancelled, from which the node of this depth is derived or which it
is. -/
def Cancelled (depth : Nat) : Prop :=
  ∃ n : Node, act (.cancel n) ∈ q.after ∧ n.ticket = q.ticket s ∧ n.depth ≤ depth

/-- The response comes before anything else ends the request. -/
def Delivered (o : Outcome) : Prop :=
  q.Accepted s ∧ ∃ l method l',
    q.after = l ++ act (.consume (.response (some (q.id s)) method o)) :: l' ∧ q.Spared s l

variable {s}

theorem split_start : ms = q.start ++ q.after := by
  simp [q.split, start]

theorem run_eq : run s ms = run (run s q.start) q.after :=
  (congrArg (run s) q.split_start).trans (run_append ..)

theorem drawn_eq : drawn s ms = drawn s q.start + drawn (run s q.start) q.after :=
  (congrArg (drawn s) q.split_start).trans (drawn_append ..)

theorem made_start : made s q.start = made s q.before ++ [q.id s] := by
  rw [start, made_append]
  simp [made, sentIds, Peer.sentIds, Act.isRequest, id]

theorem made_eq : made s ms = made s q.start ++ made (run s q.start) q.after :=
  (congrArg (made s) q.split_start).trans (made_append ..)

theorem peer_start : peer (run s q.start) =
    ((peer (run s q.before)).request q.method q.params).2 := by
  rw [start, run_append]
  exact peer_act ..

/-- A request that has just been made is open if somebody took its message. -/
theorem openId?_start : (peer (run s q.start)).tables.openId? (q.ticket s) =
    if (peer (run s q.before)).listening then some (q.id s) else none := by
  rw [peer_start]
  exact (Peer.openId?_request _ _ _).trans (if_pos rfl)

theorem arrived?_start : (peer (run s q.start)).tables.arrived? (q.ticket s) = none := by
  have hnone : (peer (run s q.before)).tickets[q.ticket s]? = none :=
    List.getElem?_eq_none (Nat.le_refl _)
  rw [peer_start, Peer.arrived?_request]
  exact congrArg (·.bind Ticket.arrived?) hnone

theorem isCancelled_start (depth : Nat) :
    (peer (run s q.start)).isCancelled ⟨q.ticket s, depth⟩ = false := by
  have hl : (peer (run s q.before)).tables.marks.length = q.ticket s := List.length_map _
  have hget : ((peer (run s q.before)).tables.marks ++ [none])[q.ticket s]? = some none := by
    rw [← hl, List.getElem?_concat_length]
  rw [peer_start, Peer.isCancelled_eq, Peer.marks_request, List.getD_eq_getElem?_getD, hget]
  rfl

theorem tracked_start (hs : (peer s).Fresh) (hn : drawn s ms < 2 ^ 63) :
    Peer.Tracked (peer s).codec (peer (run s q.start)) (drawn s q.start) (made s q.start) := by
  have hd : drawn s ms = _ := q.drawn_eq
  exact tracked_of_fresh hs q.start (by omega)

theorem tracked_before (hs : (peer s).Fresh) (hn : drawn s ms < 2 ^ 63) :
    Peer.Tracked (peer s).codec (peer (run s q.before)) (drawn s q.before) (made s q.before) ∧
      drawn s q.before < 2 ^ 63 := by
  have hd : drawn s ms = drawn s q.before + _ :=
    (congrArg (drawn s) q.split).trans (drawn_append ..)
  exact ⟨tracked_of_fresh hs q.before (by omega), by omega⟩

theorem id_notMem (hs : (peer s).Fresh) (hn : drawn s ms < 2 ^ 63) :
    q.id s ∉ made s q.before := by
  obtain ⟨h, hlt⟩ := q.tracked_before hs hn
  exact h.numbered.fresh hlt

theorem made_start_ticket (hs : (peer s).Fresh) (hn : drawn s ms < 2 ^ 63) :
    (made s q.start)[q.ticket s]? = some (q.id s) := by
  obtain ⟨h, -⟩ := q.tracked_before hs hn
  have hl : (made s q.before).length = q.ticket s := h.coherent.length
  rw [made_start, ← hl, List.getElem?_concat_length]

theorem ticket_lt (hs : (peer s).Fresh) (hn : drawn s ms < 2 ^ 63) :
    q.ticket s < (peer (run s q.start)).tickets.length := by
  have hl : (made s q.start).length = (peer (run s q.start)).tickets.length :=
    (q.tracked_start hs hn).coherent.length
  exact hl ▸ (List.getElem?_eq_some_iff.mp (q.made_start_ticket hs hn)).1

theorem made_ticket (hs : (peer s).Fresh) (hn : drawn s ms < 2 ^ 63) :
    (made s ms)[q.ticket s]? = some (q.id s) := by
  have hid := q.made_start_ticket hs hn
  rw [made_eq, List.getElem?_append_left (List.getElem?_eq_some_iff.mp hid).1, hid]

/-- Until something ends it, a request that was accepted stays open. -/
theorem openId?_eq (hs : (peer s).Fresh) (hn : drawn s ms < 2 ^ 63) (i : MessageId) :
    (peer (run s ms)).tables.openId? (q.ticket s) = some i ↔
      q.id s = i ∧ q.Accepted s ∧ q.Spared s q.after := by
  have h := q.tracked_start hs hn
  have hlt := q.ticket_lt hs hn
  rw [q.drawn_eq] at hn
  rw [q.run_eq, openId?_run h q.after hn hlt, openId?_start, Option.filter_eq_some_iff]
  cases hl : (peer (run s q.before)).listening with
  | false => simp [Accepted, hl]
  | true =>
    simp only [if_true, Option.some.injEq, Accepted, hl, true_and, Spared]
    refine and_congr_right fun hi => ?_
    simp [hi]

theorem mem_pending_iff (hs : (peer s).Fresh) (hn : drawn s ms < 2 ^ 63) :
    q.id s ∈ (peer (run s ms)).pending.map (·.id) ↔ q.Accepted s ∧ q.Spared s q.after := by
  have h := tracked_of_fresh hs ms hn
  have hopen := (h.coherent.table _ _).trans (q.openId?_eq hs hn (q.id s))
  rw [eq_self, true_and] at hopen
  rw [← hopen, List.mem_map]
  constructor
  · rintro ⟨r, hr, hri⟩
    exact ⟨r, hr, (h.coherent.id_eq_iff (q.made_ticket hs hn) hr).mp hri, hri⟩
  · rintro ⟨r, hr, -, hri⟩
    exact ⟨r, hr, hri⟩

theorem isCancelled_iff (hs : (peer s).Fresh) (hn : drawn s ms < 2 ^ 63) (depth : Nat) :
    (peer (run s ms)).isCancelled ⟨q.ticket s, depth⟩ = true ↔ q.Cancelled s depth := by
  have h := q.tracked_start hs hn
  have hlt := q.ticket_lt hs hn
  rw [q.drawn_eq] at hn
  rw [q.run_eq, isCancelled_run h q.after hn hlt, isCancelled_start, Bool.false_or,
    List.any_eq_true]
  simp only [marks_iff]
  constructor
  · rintro ⟨m, hm, n, rfl, hn⟩
    exact ⟨n, hm, hn⟩
  · rintro ⟨n, hm, hn⟩
    exact ⟨_, hm, n, rfl, hn⟩

theorem arrived?_iff (hs : (peer s).Fresh) (hn : drawn s ms < 2 ^ 63)
    (r : Except ResponseError Payload) :
    (peer (run s ms)).tables.arrived? (q.ticket s) = some r ↔
      ∃ o, q.Delivered s o ∧ o.reply = r := by
  have h := q.tracked_start hs hn
  have hlt := q.ticket_lt hs hn
  rw [q.drawn_eq] at hn
  rw [q.run_eq, arrived?_run h q.after hn hlt, arrived?_start,
    Option.or_none, openId?_start, Option.map_eq_some_iff]
  refine exists_congr fun o => and_congr_left fun _ => ?_
  unfold Delivered Accepted
  cases (peer (run s q.before)).listening with
  | false => simp
  | true =>
    rw [if_pos rfl, Option.bind_some, Option.bind_eq_some_iff]
    constructor
    · rintro ⟨m, hf, hm⟩
      obtain ⟨hends, l, l', hsplit, hl⟩ := List.find?_eq_some_iff_append.mp hf
      obtain ⟨i, method, rfl⟩ := answer?_eq_some_iff.mp hm
      rw [ends_act] at hends
      obtain rfl : i = some (q.id s) := beq_iff_eq.mp hends
      exact ⟨rfl, l, method, l', hsplit, fun b hb => by simpa using hl b hb⟩
    · rintro ⟨-, l, method, l', hsplit, hl⟩
      refine ⟨_, List.find?_eq_some_iff_append.mpr ⟨?_, l, l', hsplit, ?_⟩,
        answer?_eq_some_iff.mpr ⟨_, method, rfl⟩⟩
      · rw [ends_act]
        exact beq_self_eq_true _
      · intro b hb
        simp [hl b hb]

theorem ticket_lt_run (hs : (peer s).Fresh) (hn : drawn s ms < 2 ^ 63) :
    q.ticket s < (peer (run s ms)).tickets.length := by
  have h := tracked_of_fresh hs ms hn
  have hl : (made s ms).length = (peer (run s ms)).tickets.length := h.coherent.length
  exact hl ▸ (List.getElem?_eq_some_iff.mp (q.made_ticket hs hn)).1

/-- The ticket of the request at the end of the run. -/
theorem settled_ticket (hs : (peer s).Fresh) (hn : drawn s ms < 2 ^ 63) :
    let k := (peer (run s ms)).ticket (q.ticket s)
    k.Settled ∧ k.openId? = (peer (run s ms)).tables.openId? (q.ticket s) ∧
      k.arrived? = (peer (run s ms)).tables.arrived? (q.ticket s) := by
  intro k
  have h := tracked_of_fresh hs ms hn
  have hk : (peer (run s ms)).tickets[q.ticket s]? = some k := by
    have hget := List.getElem?_eq_getElem (q.ticket_lt_run hs hn)
    exact hget.trans (congrArg some (Peer.ticket_eq_of_getElem? hget).symm)
  exact ⟨h.settled k (List.mem_of_getElem? hk), (congrArg (·.bind Ticket.openId?) hk).symm,
    (congrArg (·.bind Ticket.arrived?) hk).symm⟩

/-- A request that nothing cancels, gives up or answers is never ended. -/
theorem spared_after (hd : ∀ o, ¬ q.Delivered s o) (ha : q.Accepted s)
    (hno : act .abandon ∉ q.after) (hc : ∀ d, ¬ q.Cancelled s d) : q.Spared s q.after := by
  cases hf : q.after.find? (ends (q.ticket s) (q.id s)) with
  | none =>
    intro m hmem
    exact Bool.eq_false_iff.mpr (List.find?_eq_none.mp hf m hmem)
  | some m =>
    obtain ⟨hm, l, l', hsplit, hl⟩ := List.find?_eq_some_iff_append.mp hf
    have hmem := List.mem_of_find?_eq_some hf
    obtain ⟨a, rfl, hends⟩ := ends_iff.mp hm
    cases a with
    | cancel n => exact absurd ⟨n, hmem, (beq_iff_eq.mp hends).symm, Nat.le_refl _⟩ (hc n.depth)
    | abandon => exact absurd hmem hno
    | consume m =>
      cases m with
      | response i method o =>
        obtain rfl : i = some (q.id s) := beq_iff_eq.mp hends
        exact absurd ⟨ha, l, method, l', hsplit, fun b hb => by simpa using hl b hb⟩ (hd o)
      | request | notification => cases hends
    | request | listen | encode | call => cases hends

theorem not_spared_after (h : ¬ q.Accepted s ∨ act .abandon ∈ q.after ∨ ∃ d, q.Cancelled s d) :
    ¬ (q.Accepted s ∧ q.Spared s q.after) := by
  rintro ⟨ha, hs⟩
  rcases h with h | h | ⟨d, n, hmem, ht, -⟩
  · exact h ha
  · have hends := hs _ h
    rw [ends_act] at hends
    cases hends
  · have hends := hs _ hmem
    rw [ends_act, Act.ends, ht, beq_self_eq_true] at hends
    cases hends

/-- What a poll of the request finds, if it is not cancelled. -/
theorem reply_eq (hs : (peer s).Fresh) (hn : drawn s ms < 2 ^ 63) :
    (∀ o, q.Delivered s o →
      ((peer (run s ms)).ticket (q.ticket s)).reply = .arrived o.reply) ∧
    (q.Accepted s → q.Spared s q.after →
      ((peer (run s ms)).ticket (q.ticket s)).reply = .waiting) ∧
    ((∀ o, ¬ q.Delivered s o) → ¬ (q.Accepted s ∧ q.Spared s q.after) →
      ((peer (run s ms)).ticket (q.ticket s)).reply = .lost) := by
  obtain ⟨hw, ho, ha⟩ := q.settled_ticket hs hn
  generalize (peer (run s ms)).ticket (q.ticket s) = k at hw ho ha ⊢
  have hopen := q.openId?_eq hs hn
  have harrived := q.arrived?_iff hs hn
  rw [← ho] at hopen
  rw [← ha] at harrived
  refine ⟨fun o hd => ?_, fun hacc hspared => ?_, fun hno hended => ?_⟩
  · exact Ticket.reply_of_arrived? ((harrived o.reply).mpr ⟨o, hd, rfl⟩)
  · rw [Ticket.Settled, (hopen _).mpr ⟨rfl, hacc, hspared⟩] at hw
    cases hr : k.reply with
    | waiting => rfl
    | arrived | lost =>
      rw [hr] at hw
      cases hw
  · cases hr : k.reply with
    | lost => rfl
    | waiting =>
      rw [Ticket.Settled, hr] at hw
      obtain ⟨i, hi⟩ := Option.isSome_iff_exists.mp hw.symm
      exact absurd ((hopen i).mp hi).2 hended
    | arrived r =>
      obtain ⟨o, hd, -⟩ := (harrived r).mp (by rw [Ticket.arrived?, hr])
      exact absurd hd (hno o)

end Sending

namespace Host

variable {σ μ : Type} [Moves μ] [Host σ μ] {s : σ} {ms : List μ}

theorem exists_sending {id : MessageId} (h : id ∈ made s ms) : ∃ q : Sending ms, q.id s = id := by
  induction ms generalizing s with
  | nil => cases h
  | cons m ms ih =>
    rcases List.mem_append.mp h with h | h
    · cases ha : act? m with
      | none =>
        rw [sentIds, ha] at h
        cases h
      | some a =>
        obtain rfl := act?_eq_some.mp ha
        rw [sentIds, ha] at h
        cases a with
        | request method params =>
          exact ⟨⟨[], method, params, ms, rfl⟩, (List.mem_singleton.mp h).symm⟩
        | cancel | consume | abandon | listen | encode | call => cases h
    · obtain ⟨q, hq⟩ := ih h
      exact ⟨⟨m :: q.before, q.method, q.params, q.after, congrArg (m :: ·) q.split⟩, hq⟩

/-- The pending table holds the requests that were accepted and that nothing has ended. -/
theorem mem_pending_iff (hs : (peer s).Fresh) (hn : drawn s ms < 2 ^ 63) (id : MessageId) :
    id ∈ (peer (run s ms)).pending.map (·.id) ↔
      ∃ q : Sending ms, q.id s = id ∧ q.Accepted s ∧ q.Spared s q.after := by
  constructor
  · intro hid
    have h := tracked_of_fresh hs ms hn
    obtain ⟨r, hr, hri⟩ := List.mem_map.mp hid
    have hown := h.coherent.own _ _ (h.coherent.openId?_of_mem hr)
    obtain ⟨q, hq⟩ := exists_sending (List.mem_of_getElem? hown)
    obtain rfl : q.id s = id := hq.trans hri
    exact ⟨q, rfl, (q.mem_pending_iff hs hn).mp hid⟩
  · rintro ⟨q, rfl, hq⟩
    exact (q.mem_pending_iff hs hn).mpr hq

end Host

namespace Peer

variable {p : Peer} {c : Codec} {n : Nat} {ids : List MessageId}

/-- Is the request of ticket `u` cancelled before anything else ends it, and does somebody take the
cancellation? -/
def cancelledFirst (p : Peer) (u : Nat) (id : MessageId) : List Act → Bool
  | [] => false
  | a :: as =>
    if a.ends u id then a.isCancel && p.listening else (p.act a).cancelledFirst u id as

theorem cancelledFirst_iff (p : Peer) (u : Nat) (id : MessageId) (as : List Act) :
    p.cancelledFirst u id as = true ↔
      ∃ l m l', as = l ++ .cancel m :: l' ∧ m.ticket = u ∧ (∀ a ∈ l, ends u id a = false) ∧
        (run p l).listening = true := by
  induction as generalizing p with
  | nil => simp [cancelledFirst]
  | cons a as ih =>
    rw [cancelledFirst]
    cases ha : a.ends u id with
    | false =>
      simp only [Bool.false_eq_true, if_false, ih]
      constructor
      · rintro ⟨l, m, l', rfl, hm, hl, hp⟩
        exact ⟨a :: l, m, l', rfl, hm, List.forall_mem_cons.mpr ⟨ha, hl⟩, hp⟩
      · rintro ⟨l, m, l', he, hm, hl, hp⟩
        cases l with
        | nil =>
          obtain ⟨rfl, -⟩ := List.cons.inj he
          simp [Act.ends, hm] at ha
        | cons b l =>
          obtain ⟨rfl, rfl⟩ := List.cons.inj he
          exact ⟨l, m, l', rfl, hm, (List.forall_mem_cons.mp hl).2, hp⟩
    | true =>
      rw [if_pos rfl, Bool.and_eq_true]
      constructor
      · rintro ⟨hc, hp⟩
        cases a with
        | cancel m => exact ⟨[], m, as, rfl, (beq_iff_eq.mp ha).symm, by simp, hp⟩
        | request | consume | abandon | listen | encode | call => cases hc
      · rintro ⟨l, m, l', he, hm, hl, hp⟩
        cases l with
        | nil =>
          obtain ⟨rfl, -⟩ := List.cons.inj he
          exact ⟨rfl, hp⟩
        | cons b l =>
          obtain ⟨rfl, -⟩ := List.cons.inj he
          exact absurd ((List.forall_mem_cons.mp hl).1.symm.trans ha) Bool.false_ne_true

/-- Of the cancellations, only that of its ticket is that of a request. -/
theorem cancelled?_eq_some_iff (h : p.tables.Coherent ids) {u : Nat} {id : MessageId}
    (hu : ids[u]? = some id) (a : Act) :
    p.cancelled? a = some id ↔ p.tables.openId? u = some id ∧ a.ends u id ∧ a.isCancel := by
  cases a with
  | cancel m =>
    simp only [cancelled?, Act.ends, Act.isCancel, beq_iff_eq, and_true]
    constructor
    · intro hi
      have hm : u = m.ticket := h.ticket_eq hu (h.own _ _ hi)
      exact ⟨hm ▸ hi, hm⟩
    · rintro ⟨hi, rfl⟩
      exact hi
  | request | consume | abandon | listen | encode | call => simp [cancelled?, Act.isCancel]

/-- The cancellation of an open request is written once at most, and if it comes first. -/
theorem cancellations_run (h : Tracked c p n ids) (as : List Act) (hn : n + drawn p as < 2 ^ 63)
    {u : Nat} {id : MessageId} (hu : ids[u]? = some id) :
    (run p as).outgoing.countP (·.cancels id) = p.outgoing.countP (·.cancels id) +
      if p.tables.openId? u = some id ∧ p.cancelledFirst u id as then 1 else 0 := by
  induction as generalizing p n ids with
  | nil => simp [run, cancelledFirst]
  | cons a as ih =>
    rw [drawn_cons] at hn
    have hul := (List.getElem?_eq_some_iff.mp hu).1
    obtain ⟨ms, ho, -, -, hms⟩ := messages_act h.coherent a
    have hu' : (ids ++ p.sentIds a)[u]? = some id := (List.getElem?_append_left hul).trans hu
    have hrest := ih (h.act (by omega) a) (by omega) hu'
    rw [openId?_act h.coherent a (h.coherent.length ▸ hul), ho, List.countP_append, hms] at hrest
    simp only [cancelled?_eq_some_iff h.coherent hu] at hrest
    refine hrest.trans ?_
    rw [cancelledFirst]
    by_cases hi : p.tables.openId? u = some id
    · cases ha : a.ends u id with
      | true => simp [hi, ha, Option.filter, and_comm]
      | false => simp [hi, ha, Option.filter]
    · simp [hi, Option.filter_eq_some_iff]

/-- A peer writes cancellations of its own requests only. -/
theorem uncancelled_run (h : Tracked c p n ids) (as : List Act) (hn : n + drawn p as < 2 ^ 63)
    {id : MessageId} (hid : id ∉ ids ++ made p as) :
    (run p as).outgoing.countP (·.cancels id) = p.outgoing.countP (·.cancels id) := by
  induction as generalizing p n ids with
  | nil => rfl
  | cons a as ih =>
    rw [drawn_cons] at hn
    obtain ⟨ms, ho, -, -, hms⟩ := messages_act h.coherent a
    have hno : p.cancelled? a ≠ some id := by
      intro hi
      cases a with
      | cancel m =>
        exact hid (List.mem_append_left _ (List.mem_of_getElem? (h.coherent.own _ _ hi)))
      | request | consume | abandon | listen | encode | call => cases hi
    have hrest := ih (h.act (by omega) a) (by omega) (by rwa [List.append_assoc])
    rw [ho, List.countP_append, hms, if_neg fun hc => hno hc.2, Nat.add_zero] at hrest
    exact hrest

end Peer

namespace Sending

variable {as : List Act} (s : Sending as) (p : Peer)

/-- A node of the request is cancelled before anything else ends it, and somebody takes the message
that says so. -/
def CancelledFirst : Prop :=
  ∃ l n l', s.after = l ++ .cancel n :: l' ∧ n.ticket = s.ticket p ∧ s.Spared p l ∧
    (run p (s.start ++ l)).listening = true

variable {p}

theorem cancelledFirst_iff :
    s.CancelledFirst p ↔
      (run p s.start).cancelledFirst (s.ticket p) (s.id p) s.after = true := by
  rw [Peer.cancelledFirst_iff]
  simp only [CancelledFirst, Spared, run_append]

/-- Nothing that was written before can be taken for the cancellation of the request. -/
theorem cancellations_start (hp : p.Fresh) (hn : drawn p as < 2 ^ 63) :
    (run p s.start).outgoing.countP (·.cancels (s.id p)) = 0 := by
  obtain ⟨h, hlt⟩ := s.tracked_before (s := p) hp hn
  have hbefore := Peer.uncancelled_run hp.tracked s.before (by omega) (s.id_notMem (s := p) hp hn)
  obtain ⟨ms, ho, -, -, hms⟩ :=
    Peer.messages_act (p := run p s.before) h.coherent (.request s.method s.params)
  have hstart : (run p s.start).outgoing = (run p s.before).outgoing ++ ms :=
    (congrArg Peer.outgoing (run_append ..)).trans ho
  rw [hstart, List.countP_append, hbefore, hms]
  simp [hp.outgoing, Peer.cancelled?]

theorem cancellations_eq (hp : p.Fresh) (hn : drawn p as < 2 ^ 63) [Decidable (s.Accepted p)]
    [Decidable (s.CancelledFirst p)] :
    (run p as).outgoing.countP (·.cancels (s.id p)) =
      if s.Accepted p ∧ s.CancelledFirst p then 1 else 0 := by
  have h : Peer.Tracked _ (run p s.start) _ _ := s.tracked_start hp hn
  have hid := s.made_start_ticket (s := p) hp hn
  have hz := s.cancellations_start hp hn
  have ho : (run p s.start).tables.openId? _ = _ := s.openId?_start (s := p)
  rw [s.drawn_eq] at hn
  rw [s.run_eq, Peer.cancellations_run h s.after hn hid, hz, ho, Nat.zero_add]
  simp only [s.cancelledFirst_iff, Accepted]
  cases (peer (run p s.before)).listening <;> simp

/-- A request that could not be sent changes nothing and is never cancelled on the wire. -/
theorem not_accepted (hp : p.Fresh) (hn : drawn p as < 2 ^ 63) (ha : ¬ s.Accepted p) :
    (run p s.start).pending = (run p s.before).pending ∧
      (run p s.start).outgoing = (run p s.before).outgoing ∧
      ∀ l n l', s.after = l ++ .cancel n :: l' → n.ticket = s.ticket p →
        ((run p (s.start ++ l)).cancel n).outgoing = (run p (s.start ++ l)).outgoing := by
  have hl : (run p s.before).listening = false := Bool.eq_false_iff.mpr ha
  obtain ⟨k, he, -⟩ := Peer.tables_request (run p s.before) s.method s.params
  have hstart : (run p s.start).tables =
      ((run p s.before).request s.method s.params).2.tables :=
    congrArg Peer.tables (s.peer_start (s := p))
  rw [he, hl] at hstart
  refine ⟨?_, ?_, ?_⟩
  · obtain ⟨h, -⟩ := s.tracked_before (s := p) hp hn
    have hnew : ∀ r ∈ (run p s.before).pending, r.id ≠ s.id p := fun r hr hi =>
      s.id_notMem (s := p) hp hn
        (hi ▸ List.mem_of_getElem? (h.coherent.own _ _ (h.coherent.openId?_of_mem hr)))
    have hf : (run p s.before).pending.filter (·.id != s.id p) = (run p s.before).pending :=
      List.filter_eq_self.mpr fun r hr => bne_iff_ne.mpr (hnew r hr)
    exact (congrArg Tables.pending hstart).trans ((List.append_nil _).trans hf)
  · exact (congrArg Tables.outgoing hstart).trans (by simp)
  · intro l n l' hsplit hn'
    have h := s.tracked_start (s := p) hp hn
    have hlt := s.ticket_lt (s := p) hp hn
    have hstart := (s.openId?_start (s := p)).trans (if_neg ha)
    have hd : drawn (run p s.start) s.after =
        drawn (run p s.start) l + drawn (run (run p s.start) l) (.cancel n :: l') := by
      rw [hsplit, drawn_append]
    rw [s.drawn_eq] at hn
    have hno := openId?_run h l (by omega) hlt
    rw [hstart, Option.filter_none] at hno
    have h' : Peer.Tracked _ (run (run p s.start) l) _ _ := tracked_run h l (by omega)
    have hclosed : (run (run p s.start) l).tables.openId? n.ticket = none := hn' ▸ hno
    rw [run_append, Peer.outgoing_cancel h'.coherent n, hclosed]
    exact List.append_nil _

end Sending

namespace Peer

/-- In every run the pending table holds the requests that were accepted and that nothing has ended
yet. A request is cancelled on the wire at most once, and exactly if its cancellation came first; a
request that could not be sent leaves the table and the queue alone, then and when it is cancelled.
Messages that come in, other than responses, never change the table. -/
theorem first_end_decides (p : Peer) (hp : p.Fresh) (as : List Act) (hn : drawn p as < 2 ^ 63) :
    (∀ id, id ∈ (run p as).pending.map (·.id) ↔
      ∃ s : Sending as, s.id p = id ∧ s.Accepted p ∧ s.Spared p s.after) ∧
    ((run p as).pending.map (·.id)).Nodup ∧
    (∀ s : Sending as,
      (run p as).outgoing.countP (·.cancels (s.id p)) ≤ 1 ∧
      ((run p as).outgoing.countP (·.cancels (s.id p)) = 1 ↔
        s.Accepted p ∧ s.CancelledFirst p) ∧
      (¬ s.Accepted p →
        (run p s.start).pending = (run p s.before).pending ∧
        (run p s.start).outgoing = (run p s.before).outgoing ∧
        ∀ l n l', s.after = l ++ .cancel n :: l' → n.ticket = s.ticket p →
          ((run p (s.start ++ l)).cancel n).outgoing = (run p (s.start ++ l)).outgoing)) ∧
    ∀ (q : Peer) (m : Message), (∀ id method o, m ≠ .response id method o) →
      (q.consume m).pending = q.pending := by
  have h : Tracked _ (run p as) _ _ := tracked_of_fresh (s := p) hp as hn
  refine ⟨mem_pending_iff (s := p) hp hn, h.coherent.single, fun s => ?_, fun q m hm => ?_⟩
  · classical
    rw [s.cancellations_eq hp hn]
    refine ⟨?_, ?_, s.not_accepted hp hn⟩
    · split <;> omega
    · split <;> simp_all
  · obtain ⟨ms, ts, ps, cs, k, ht, -, hsame⟩ := frame_consume q m
    have hresponse : m.isResponse = false := by
      apply Bool.eq_false_iff.mpr
      intro hr
      obtain ⟨id, method, o, he⟩ := Message.eq_response hr
      exact hm id method o he
    obtain ⟨-, rfl⟩ := hsame hresponse
    exact congrArg Tables.pending ht

/-- A request that is cancelled twice before its response comes in. -/
theorem first_end_decides_late_response :
    let p : Peer := { codec := ⟨.base, ⟨[]⟩, 1⟩, service := .empty "" }
    let as : List Act := [.request "shout" .absent, .cancel ⟨0, 0⟩, .cancel ⟨0, 1⟩,
      .consume (.response (some (.text "1")) none (.result .absent))]
    p.Fresh ∧ drawn p as < 2 ^ 63 ∧ (run p as).outgoing.countP (·.cancels (.text "1")) = 1 := by
  intro p as
  have hp : p.Fresh := ⟨rfl, rfl, rfl, rfl, rfl, rfl⟩
  have hn : drawn p as < 2 ^ 63 := Nat.lt_of_le_of_lt (drawn_le_length p as) (by decide)
  obtain ⟨-, -, hs, -⟩ := first_end_decides p hp as hn
  let s : Sending as := ⟨[], "shout", .absent, as.tail, rfl⟩
  have hid : s.id p = .text "1" := by decide
  refine ⟨hp, hn, hid ▸ (hs s).2.1.mpr ⟨rfl, [], ⟨0, 0⟩, _, rfl, rfl, ?_, rfl⟩⟩
  simp [Sending.Spared]

end Peer
end RpcPeer
