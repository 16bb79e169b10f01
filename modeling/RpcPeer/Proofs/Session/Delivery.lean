import RpcPeer.Proofs.Peer.Fate
import RpcPeer.Proofs.Session.Outlet

/-! A request between the pending table, the queue and the wire. -/
namespace RpcPeer
open Host

/-- The frame of this message is among what has been written since `old`. -/
def Sink.Shows (s : Sink) (old : List String) (c : Codec) (m : Message) : Prop :=
  ∃ text front back, (c.encodeText m).1 = .ok text ∧
    s.chunks = old ++ front ++ Frame.header text :: text :: back

theorem Sink.Shows.append {s s' : Sink} {old : List String} {c : Codec} {m : Message}
    (h : s.Shows old c m) {more : List String} (hs : s'.chunks = s.chunks ++ more) :
    s'.Shows old c m := by
  obtain ⟨text, front, back, ht, hc⟩ := h
  exact ⟨text, front, back ++ more, ht, by simp [hs, hc]⟩

/-- The text of a request does not depend on the counter. -/
theorem Codec.encodeText_request {c d : Codec} (h : d.dialect = c.dialect) (id : MessageId)
    (method : String) (params : Payload) :
    (d.encodeText (.request id method params)).1 =
      (c.encodeText (.request id method params)).1 := by
  obtain ⟨dialect, catalog, next⟩ := c
  obtain ⟨_, catalog', next'⟩ := d
  cases h
  cases dialect <;> rfl

/-- The writing task leaves nothing in the queue, and all requests as they are. -/
theorem Peer.frame_run (p : Peer) {w : SessionWriter} (hw : w.result = none) :
    ∃ d b, (w.run p).2.tables = { p.tables with codec := d, outgoing := [], listening := b } := by
  obtain ⟨d, ht⟩ := Peer.frame_writeMessages { p with outgoing := [] } w.sink p.outgoing
  unfold SessionWriter.run SessionWriter.run.writeAll
  rw [hw]
  cases h : Peer.writeMessages { p with outgoing := [] } w.sink p.outgoing with
  | mk r q =>
  obtain ⟨sink, r⟩ := r
  rw [h] at ht
  cases r with
  | error e => exact ⟨d, false, congrArg (fun t => { t with listening := false }) ht⟩
  | ok u =>
    refine ⟨d, p.listening, Eq.trans ?_ ht⟩
    cases hc : q.closed <;> simp [hc, tables_log]

namespace Outlet

/-- A request is accounted for: it is queued, or its frame has been written since `old`, or it
cannot be encoded. -/
structure Accounts (l : Outlet) (old : List String) (c : Codec) (m : Message) : Prop where
  grown : old <+: l.writer.sink.chunks
  place : m ∈ l.queued ∨ l.writer.sink.Shows old c m ∨ ∃ e, m.fault? c.dialect = some e

variable {c : Codec} {l : Outlet} {n : Nat} {ids : List MessageId}

theorem result_move {m : OutletMove} (h : (l.move m).writer.result = none) :
    l.writer.result = none := by
  cases m with
  | act | event | answer => exact h
  | attempt =>
    rcases l.attempt_cases with he | ⟨hw, -⟩
    · exact he ▸ h
    · exact hw

theorem result_run {ms : List OutletMove} (h : (run l ms).writer.result = none) :
    l.writer.result = none := by
  induction ms generalizing l with
  | nil => exact h
  | cons m ms ih => exact result_move (ih h)

/-- All moves but an attempt leave alone what is queued already, and the writing task. -/
theorem queued_move (h : l.peer.tables.Coherent ids) {m : OutletMove} (hm : m ≠ .attempt) :
    (∃ new, (l.move m).queued = l.queued ++ new) ∧ (l.move m).writer = l.writer := by
  have hpost : ∀ x, ∃ new, (l.peer.send x).outgoing = l.peer.outgoing ++ new := fun x =>
    ⟨_, congrArg Tables.outgoing (Peer.tables_send l.peer x)⟩
  have hnew : ∃ new, (l.move m).peer.outgoing = l.peer.outgoing ++ new ∧
      (l.move m).held = l.held ∧ (l.move m).writer = l.writer := by
    cases m with
    | act a =>
      obtain ⟨new, ho, -⟩ := Peer.messages_act h a
      exact ⟨new, ho, rfl, rfl⟩
    | event method params =>
      obtain ⟨new, ho⟩ := hpost (.notification method params)
      exact ⟨new, ho, rfl, rfl⟩
    | answer id method o =>
      obtain ⟨new, ho⟩ := hpost (.response id method o)
      exact ⟨new, ho, rfl, rfl⟩
    | attempt => exact absurd rfl hm
  obtain ⟨new, ho, hheld, hw⟩ := hnew
  exact ⟨⟨new, by rw [queued, queued, ho, hheld, List.append_assoc]⟩, hw⟩

variable {old : List String} {id : MessageId} {method : String} {params : Payload}

/-- The request may be the one that is tried, or it is behind it. -/
theorem Accounts.of_tries (h : Accounts l old c (.request id method params))
    (hd : l.peer.codec.dialect = c.dialect) {m : Message} {rest : List Message}
    (hq : l.queued = m :: rest) {l' : Outlet} (htry : Tries l.peer.codec l.writer m rest l')
    (hw : l'.writer.result = none) : Accounts l' old c (.request id method params) := by
  have hplace := h.place
  rw [hq, List.mem_cons, or_assoc] at hplace
  cases htry with
  | drops he hqueue hwriter =>
    refine ⟨hwriter.symm ▸ h.grown, ?_⟩
    rw [hqueue, hwriter]
    rcases hplace with rfl | hmem | hrest
    · exact .inr (.inr ⟨_, hd ▸ Codec.fault?_of_encodeText_error he⟩)
    · exact .inl (List.mem_append_right _ hmem)
    · exact .inr hrest
  | @writes text ht hqueue hchunks =>
    refine ⟨hchunks ▸ h.grown.trans (List.prefix_append _ _), ?_⟩
    rw [hqueue]
    rcases hplace with rfl | hmem | hshows | hfault
    · obtain ⟨front, hfront⟩ := h.grown
      rw [Codec.encodeText_request hd] at ht
      exact .inr (.inl ⟨text, front, [], ht, by rw [hchunks, hfront]⟩)
    · exact .inl hmem
    · exact .inr (.inl (hshows.append hchunks))
    · exact .inr (.inr hfault)
  | fails hfail => exact absurd hw hfail

theorem Accounts.move (h : Accounts l old c (.request id method params))
    (hc : l.peer.tables.Coherent ids) (hd : l.peer.codec.dialect = c.dialect) {m : OutletMove}
    (hw : (l.move m).writer.result = none) :
    Accounts (l.move m) old c (.request id method params) := by
  by_cases hm : m = .attempt
  · subst hm
    rcases l.attempt_cases with he | ⟨-, x, rest, hq, htry, -⟩
    · exact (show l.move .attempt = l from he).symm ▸ h
    · exact h.of_tries hd hq htry hw
  · obtain ⟨⟨new, hnew⟩, hwriter⟩ := queued_move hc hm
    refine ⟨hwriter.symm ▸ h.grown, ?_⟩
    rw [hnew, hwriter]
    exact h.place.imp_left fun hmem => List.mem_append_left _ hmem

theorem Accounts.run (h : Accounts l old c (.request id method params))
    (ht : l.peer.Tracked c n ids) (ms : List OutletMove) (hn : n + drawn l ms < 2 ^ 63)
    (hw : (run l ms).writer.result = none) :
    Accounts (run l ms) old c (.request id method params) := by
  induction ms generalizing l n ids with
  | nil => exact h
  | cons m ms ih =>
    rw [drawn_cons] at hn
    have h' := h.move ht.coherent ht.numbered.dialect (m := m) (result_run hw)
    have hrest := ih h' (tracked_move ht (by omega) m) (by omega)
    exact hrest hw

end Outlet

namespace Sending

variable {ms : List OutletMove} (q : Sending ms) (l : Outlet)

def message : Message := .request (q.id l) q.method q.params

/-- What had been written when the request was made. -/
def written : List String := (run l q.before).writer.sink.chunks

/-- The frame of the request has been written after it was made. -/
def Sent : Prop := (run l ms).writer.sink.Shows (q.written l) l.peer.codec (q.message l)

variable {l}

/-- As long as the writing task does not fail, each request that was accepted is accounted for. -/
theorem accounts (hl : l.peer.Fresh) (hn : drawn l ms < 2 ^ 63)
    (hw : (run l ms).writer.result = none) (ha : q.Accepted l) :
    (run l ms).Accounts (q.written l) l.peer.codec (q.message l) := by
  have h := q.tracked_start (s := l) hl hn
  have hstart : run l q.start = (run l q.before).move (.act (.request q.method q.params)) :=
    run_append ..
  rw [q.drawn_eq] at hn
  rw [q.run_eq] at hw ⊢
  refine Outlet.Accounts.run ⟨?_, .inl ?_⟩ h q.after hn hw
  · rw [hstart]
    exact List.prefix_rfl
  · obtain ⟨k, ht, -⟩ := Peer.tables_request (run l q.before).peer q.method q.params
    have ho : (run l q.start).peer.outgoing = _ :=
      (congrArg (·.peer.outgoing) hstart).trans (congrArg Tables.outgoing ht)
    have hlis : (run l q.before).peer.listening = true := ha
    rw [Outlet.queued, ho, hlis]
    simp [id, peer]

end Sending

namespace Outlet

/-- The writing task comes to the end of the queue or fails. It takes no request out of the
table. -/
theorem run_drains (p : Peer) (w : SessionWriter) :
    ((w.run p).1.result = none → (w.run p).2.outgoing = []) ∧ (w.run p).2.pending = p.pending := by
  cases hw : w.result with
  | some r =>
    have hrun : w.run p = (w, p) := by simp [SessionWriter.run, hw]
    rw [hrun]
    exact ⟨fun h => absurd (hw.symm.trans h) (Option.some_ne_none r), rfl⟩
  | none =>
    obtain ⟨d, b, ht⟩ := p.frame_run hw
    exact ⟨fun _ => congrArg Tables.outgoing ht, congrArg Tables.pending ht⟩

/-- Once the writing task has come to the end of the queue and has not failed, the requests that
were accepted and that nothing has ended are pending, and no others. The frame of each has been
written since it was made, unless it cannot be encoded. A request that nobody takes is not pending,
and its promise fails. The writing task makes attempts until the queue is empty or one has failed,
and it takes no request out of the table. -/
theorem drained_pending_sent (l : Outlet) (hl : l.peer.Fresh) (ms : List OutletMove)
    (hn : drawn l ms < 2 ^ 63) :
    ((run l ms).queued = [] → (run l ms).writer.result = none →
      ∀ id, id ∈ (run l ms).peer.pending.map (·.id) ↔
        ∃ q : Sending ms, q.id l = id ∧ q.Accepted l ∧ q.Spared l q.after ∧
          (q.Sent l ∨ ∃ e, (q.message l).fault? l.peer.codec.dialect = some e)) ∧
    (∀ q : Sending ms, ¬ q.Accepted l →
      q.id l ∉ (run l ms).peer.pending.map (·.id) ∧
      (run l ms).peer.replyOf (q.ticket l) =
        if (run l ms).peer.isCancelled ⟨q.ticket l, 0⟩ then .cancelled
        else .ready (.error .channelClosed)) ∧
    ∀ (p : Peer) (w : SessionWriter), p.closed = false →
      (∃ n, run (⟨p, w, none⟩ : Outlet) (List.replicate n .attempt) =
        ⟨(w.run p).2, (w.run p).1, none⟩) ∧
      ((w.run p).1.result = none → (w.run p).2.outgoing = []) ∧
      (w.run p).2.pending = p.pending := by
  refine ⟨fun hempty hw id => ?_, fun q ha => ⟨fun hmem => ?_, ?_⟩,
    fun p w hp => ⟨exists_attempts_run p w hp, run_drains p w⟩⟩
  · refine (mem_pending_iff (s := l) hl hn id).trans (exists_congr fun q => and_congr_right fun _ =>
      and_congr_right fun ha => (and_iff_left ?_).symm)
    have hplace := (q.accounts hl hn hw ha).place
    rw [hempty] at hplace
    exact hplace.resolve_left List.not_mem_nil
  · exact ha ((q.mem_pending_iff (s := l) hl hn).mp hmem).1
  · obtain ⟨-, -, hlost⟩ := q.reply_eq (s := l) hl hn
    have hr : ((run l ms).peer.ticket (q.ticket l)).reply = .lost :=
      hlost (fun o hd => ha hd.1) fun h => ha h.1
    rw [Peer.replyOf, hr]

/-- A request that is written, and one that is made when nobody listens any more. -/
theorem drained_pending_sent_two_requests :
    let p : Peer := { codec := ⟨.base, ⟨[]⟩, 1⟩, service := .empty "" }
    let l : Outlet := ⟨p, {}, none⟩
    let ms : List OutletMove := [.act (.request "run" .absent), .attempt, .act (.listen false),
      .act (.request "halt" .absent)]
    l.peer.Fresh ∧ drawn l ms = 2 ∧ (run l ms).queued = [] ∧
      (run l ms).writer.result = none ∧
      (∃ q : Sending ms, q.id l = .text "1" ∧ q.Sent l) ∧
      (run l ms).peer.replyOf 1 = .ready (.error .channelClosed) := by
  intro p l ms
  have hl : l.peer.Fresh := ⟨rfl, rfl, rfl, rfl, rfl, rfl⟩
  have hn : drawn l ms = 2 := by decide
  have hempty : (run l ms).queued = [] := by decide
  have hw : (run l ms).writer.result = none := by decide
  obtain ⟨hsent, hlost, -⟩ := drained_pending_sent l hl ms (by rw [hn]; decide)
  have habsent : ∀ method params, .act (.request method params) ∈ ms → params = .absent := by
    intro method params hmem
    rcases (by simpa [ms] using hmem) with ⟨-, h⟩ | ⟨-, h⟩ <;> exact h
  refine ⟨hl, hn, hempty, hw, ?_, ?_⟩
  · obtain ⟨q, hid, -, -, hq⟩ := (hsent hempty hw (.text "1")).mp (by decide)
    have hmem : Moves.act (.request q.method q.params) ∈ q.before ++
        Moves.act (.request q.method q.params) :: q.after := by simp
    rw [← q.split] at hmem
    have hparams : q.params = .absent := habsent _ _ hmem
    refine ⟨q, hid, hq.resolve_right ?_⟩
    rw [Sending.message, hparams]
    rintro ⟨e, he⟩
    cases he
  · let q : Sending ms := ⟨ms.take 3, "halt", .absent, [], rfl⟩
    have hticket : q.ticket l = 1 := by decide
    have hcancelled : (run l ms).peer.isCancelled ⟨1, 0⟩ = false := by decide
    have hreply := (hlost q nofun).2
    rwa [hticket, hcancelled] at hreply

/-- A request with parameters that cannot be encoded is dropped by the writing task. It stays
pending, and its promise waits. -/
theorem unencodable_stays_pending :
    let p : Peer := { codec := ⟨.base, ⟨[]⟩, 1⟩, service := .empty "" }
    let l : Outlet := run (⟨p, {}, none⟩ : Outlet)
      [.act (.request "run" (.typed "T" (.sealed "closed"))), .attempt]
    l.queued = [] ∧ l.writer.result = none ∧ l.writer.sink.chunks = [] ∧
      l.peer.pending.map (·.id) = [.text "1"] ∧ l.peer.replyOf 0 = .pending (.reply 0) := by
  intro p l
  exact ⟨by decide, by decide, by decide, by decide, rfl⟩

end Outlet
end RpcPeer
