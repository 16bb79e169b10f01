import RpcPeer.Proofs.Peer.Runs
import RpcPeer.Proofs.Session.Queue

/-! A peer and the task that writes its messages, attempt by attempt. -/
namespace RpcPeer
open Host

/-- A peer and the task that writes its messages. -/
structure Outlet where
  peer : Peer
  writer : SessionWriter := {}
  /-- What takes the place of a message that could not be encoded, until that is written. -/
  held : Option Message := none

namespace Outlet

def queued (l : Outlet) : List Message := l.held.toList ++ l.peer.outgoing

/-- Writes a frame for a message. After a failure nobody takes messages any more. -/
def emit (l : Outlet) (m : Message) (text : String) : Outlet :=
  match l.writer.sink.writeFrame text with
  | (sink, .ok ()) => { l with writer := { l.writer with sink }, peer := l.peer.traceSent m }
  | (sink, .error e) =>
    { l with
      writer := { sink, result := some (.error e) }
      peer := { l.peer.traceSent m with outgoing := [], listening := false } }

/-- Tries to write a message; what takes its place is held if it cannot be encoded. -/
def tryMessage (l : Outlet) (what : String) (m : Message) (excuse : EncodeError → Option Message) :
    Outlet :=
  match l.peer.codec.encodeText m with
  | (.ok text, codec) => { l with peer := { l.peer with codec } }.emit m text
  | (.error e, codec) =>
    { l with
      held := excuse e
      peer := { l.peer with codec }.log .error s!"Failed to encode {what}: {e.message}" }

/-- The next attempt of the writing task. Between two attempts anything else may happen. -/
def attempt (l : Outlet) : Outlet :=
  if l.writer.result.isSome then l
  else
    match l.held, l.peer.outgoing with
    | some m, _ => { l with held := none }.tryMessage "error response" m fun _ => none
    | none, m :: ms =>
      { l with peer := { l.peer with outgoing := ms } }.tryMessage "outgoing message" m m.fallback?
    | none, [] => l

end Outlet

/-- What can happen to an outlet. -/
inductive OutletMove
  | act (a : Act)
  /-- An event is sent. -/
  | event (method : String) (params : Payload)
  | answer (id : Option MessageId) (method : Option String) (o : Outcome)
  | attempt

/-- The act of the peer that a move is. -/
def OutletMove.act? : OutletMove → Option Act
  | act a => some a
  | _ => none

namespace Outlet

def move (l : Outlet) : OutletMove → Outlet
  | .act a => { l with peer := l.peer.act a }
  | .event method params => { l with peer := l.peer.send (.notification method params) }
  | .answer id method o => { l with peer := l.peer.send (.response id method o) }
  | .attempt => l.attempt

end Outlet

theorem Sink.chunks_of_write {s s' : Sink} {chunk : String} (h : s.write chunk = .ok s') :
    s'.chunks = s.chunks ++ [chunk] := by
  unfold write at h
  split at h
  next => exact Except.ok.inj h ▸ rfl
  next =>
    split at h
    next => cases h
    next => exact Except.ok.inj h ▸ rfl

theorem Sink.chunks_writeFrame (s : Sink) (body : String) :
    ∃ s' r, s.writeFrame body = (s', r) ∧
      match r with
      | .ok () => s'.chunks = s.chunks ++ [Frame.header body, body]
      | .error _ => ∃ rest, s'.chunks = s.chunks ++ rest ∧ rest.length ≤ 1 := by
  unfold writeFrame
  cases hh : s.write (Frame.header body) with
  | error e => exact ⟨s, .error e, rfl, [], by simp⟩
  | ok s₁ =>
    have h₁ := chunks_of_write hh
    cases hb : s₁.write body with
    | error e => exact ⟨s₁, .error e, by simp only [hb], [Frame.header body], h₁, le_rfl⟩
    | ok s₂ =>
      refine ⟨s₂, .ok (), by simp only [hb], ?_⟩
      simp only [chunks_of_write hb, h₁, List.append_assoc]
      rfl

namespace Outlet

variable {m : Message} {ms : List Message}

section
variable {l : Outlet} {d : Codec} (what : String) (excuse : EncodeError → Option Message)

theorem tryMessage_of_ok {text : String} (h : l.peer.codec.encodeText m = (.ok text, d)) :
    l.tryMessage what m excuse = { l with peer := { l.peer with codec := d } }.emit m text := by
  simp only [tryMessage, h]

theorem tryMessage_of_error {e : EncodeError} (h : l.peer.codec.encodeText m = (.error e, d)) :
    l.tryMessage what m excuse =
      { l with held := excuse e, peer := l.peer.unencoded d what e } := by
  simp only [tryMessage, h]
  rfl

theorem attempt_held (hw : l.writer.result = none) (hm : l.held = some m) :
    l.attempt = { l with held := none }.tryMessage "error response" m fun _ => none := by
  simp [attempt, hw, hm]

theorem attempt_cons (hw : l.writer.result = none) (hm : l.held = none)
    (ho : l.peer.outgoing = m :: ms) :
    l.attempt =
      { l with peer := { l.peer with outgoing := ms } }.tryMessage "outgoing message" m
        m.fallback? := by
  simp [attempt, hw, hm, ho]

end

/-- What an attempt does to the message that is first in the queue: it cannot be encoded, or its
frame is written, or the task fails. -/
inductive Tries (c : Codec) (w : SessionWriter) (m : Message) (rest : List Message) (l' : Outlet) :
    Prop
  | drops {e : EncodeError} {excuse : List Message} (h : (c.encodeText m).1 = .error e)
      (queue : l'.queued = excuse ++ rest) (writer : l'.writer = w)
  | writes {text : String} (h : (c.encodeText m).1 = .ok text) (queue : l'.queued = rest)
      (chunks : l'.writer.sink.chunks = w.sink.chunks ++ [Frame.header text, text])
  | fails (h : l'.writer.result ≠ none)

theorem emit_tries (l : Outlet) (hheld : l.held = none) (m : Message) (text : String) :
    ((l.emit m text).queued = l.peer.outgoing ∧ (l.emit m text).writer.sink.chunks =
        l.writer.sink.chunks ++ [Frame.header text, text]) ∨
      (l.emit m text).writer.result ≠ none := by
  obtain ⟨s, r, he, hs⟩ := l.writer.sink.chunks_writeFrame text
  unfold emit
  rw [he]
  cases r with
  | ok u =>
    refine .inl ⟨?_, hs⟩
    rw [queued, hheld]
    exact congrArg Tables.outgoing (Peer.tables_traceSent l.peer m)
  | error e => exact .inr (Option.some_ne_none _)

theorem frame_emit (l : Outlet) (m : Message) (text : String) :
    ∃ ms b, (l.emit m text).peer.tables =
      { l.peer.tables with outgoing := ms, listening := b } := by
  have ht := Peer.tables_traceSent l.peer m
  unfold emit
  cases l.writer.sink.writeFrame text with
  | mk s r =>
    cases r with
    | ok u => exact ⟨l.peer.outgoing, l.peer.listening, ht⟩
    | error e =>
      exact ⟨[], false, congrArg (fun t => { t with outgoing := [], listening := false }) ht⟩

theorem tryMessage_tries (l : Outlet) (hheld : l.held = none) (what : String) (m : Message)
    (excuse : EncodeError → Option Message) :
    Tries l.peer.codec l.writer m l.peer.outgoing (l.tryMessage what m excuse) ∧
      l.peer.Keeps (l.tryMessage what m excuse).peer := by
  cases h : l.peer.codec.encodeText m with
  | mk r d =>
  have hd : (l.peer.codec.encode m).2 = d := congrArg Prod.snd h
  have hr : (l.peer.codec.encodeText m).1 = r := congrArg Prod.fst h
  cases r with
  | error e =>
    rw [tryMessage_of_error what excuse h]
    exact ⟨.drops hr rfl rfl, d, l.peer.outgoing, l.peer.listening, rfl, .inr ⟨m, hd.symm⟩⟩
  | ok text =>
    rw [tryMessage_of_ok what excuse h]
    obtain ⟨q, b, ht⟩ := frame_emit { l with peer := { l.peer with codec := d } } m text
    refine ⟨?_, d, q, b, ht, .inr ⟨m, hd.symm⟩⟩
    rcases emit_tries { l with peer := { l.peer with codec := d } } hheld m text with
      ⟨hq, hc⟩ | hfail
    · exact .writes hr hq hc
    · exact .fails hfail

/-- An attempt does nothing, or it tries to write the first message of the queue. -/
theorem attempt_cases (l : Outlet) : l.attempt = l ∨ l.writer.result = none ∧
    ∃ m rest, l.queued = m :: rest ∧ Tries l.peer.codec l.writer m rest l.attempt ∧
      l.peer.Keeps l.attempt.peer := by
  cases hw : l.writer.result with
  | some r => exact .inl (by simp [attempt, hw])
  | none =>
    cases hheld : l.held with
    | some m =>
      refine .inr ⟨rfl, m, l.peer.outgoing, by simp [queued, hheld], ?_⟩
      rw [attempt_held hw hheld]
      exact tryMessage_tries { l with held := none } rfl _ m _
    | none =>
      cases ho : l.peer.outgoing with
      | nil => exact .inl (by simp [attempt, hw, hheld, ho])
      | cons m rest =>
        refine .inr ⟨rfl, m, rest, by simp [queued, hheld, ho], ?_⟩
        rw [attempt_cons hw hheld ho]
        exact tryMessage_tries { l with peer := { l.peer with outgoing := rest } } hheld _ m _

theorem keeps_move (l : Outlet) {m : OutletMove} (hm : ∀ a, m ≠ .act a) :
    l.peer.Keeps (l.move m).peer := by
  cases m with
  | act a => exact absurd rfl (hm a)
  | event method params => exact ⟨_, _, _, Peer.tables_send _ _, .inl rfl⟩
  | answer id method o => exact ⟨_, _, _, Peer.tables_send _ _, .inl rfl⟩
  | attempt =>
    rcases l.attempt_cases with he | ⟨-, x, rest, -, -, hkeeps⟩
    · have ht : (l.move .attempt).peer = l.peer := congrArg Outlet.peer he
      exact ⟨_, l.peer.outgoing, l.peer.listening, congrArg Peer.tables ht, .inl rfl⟩
    · exact hkeeps

end Outlet

instance : Moves OutletMove where
  act := .act
  act? := OutletMove.act?
  act?_eq_some {m a} := by
    cases m <;> simp [OutletMove.act?]

instance : Host Outlet OutletMove where
  peer := Outlet.peer
  move := Outlet.move
  peer_act _ _ := rfl
  keeps l m h := l.keeps_move fun a ha => by
    rw [ha] at h
    cases h

theorem Outlet.tracked_move {l : Outlet} {c : Codec} {n : Nat} {ids : List MessageId}
    (h : l.peer.Tracked c n ids) (hn : n < 2 ^ 63) (m : OutletMove) :
    (l.move m).peer.Tracked c (n + l.peer.codec.takenUntil (l.move m).peer.codec)
      (ids ++ sentIds l m) :=
  Host.tracked_move (s := l) h hn m

theorem Outlet.drawn_cons (l : Outlet) (m : OutletMove) (ms : List OutletMove) :
    drawn l (m :: ms) =
      l.peer.codec.takenUntil (l.move m).peer.codec + drawn (l.move m) ms := rfl

theorem Peer.traceSent_outgoing (p : Peer) (m : Message) (ms : List Message) :
    ({ p with outgoing := ms } : Peer).traceSent m = { p.traceSent m with outgoing := ms } := by
  obtain ⟨_, _, _, _, _, _, _, _, _, _, _, transcript, fault⟩ := p
  cases transcript with
  | none => rfl
  | some t => cases fault <;> rfl

theorem Peer.frame_writeMessage (p : Peer) (s : Sink) (m : Message) :
    ∃ d, (p.writeMessage s m).2.tables = { p.tables with codec := d } := by
  obtain ⟨d, r, q, -, hq, he⟩ := p.writes_encodeOutgoing m
  refine ⟨d, ?_⟩
  rw [writeMessage, he]
  cases r with
  | none => exact hq
  | some x => exact (tables_traceSent q x.1).trans hq

theorem Peer.frame_writeMessages (p : Peer) (s : Sink) (ms : List Message) :
    ∃ d, (p.writeMessages s ms).2.tables = { p.tables with codec := d } := by
  induction ms generalizing p s with
  | nil => exact ⟨p.codec, rfl⟩
  | cons m ms ih =>
    obtain ⟨d, hd⟩ := p.frame_writeMessage s m
    rw [writeMessages]
    cases h : p.writeMessage s m with
    | mk r q =>
    obtain ⟨sink, r⟩ := r
    rw [h] at hd
    cases r with
    | error e => exact ⟨d, hd⟩
    | ok u =>
      obtain ⟨d', hd'⟩ := ih q sink
      exact ⟨d', hd'.trans (by rw [hd])⟩

namespace Outlet

variable {p : Peer} {w : SessionWriter} {m : Message} {ms : List Message}

/-- The outlet that a written message leaves to the rest of the queue. -/
def resume (w : SessionWriter) (ms : List Message) :
    (Sink × Except LinkError Unit) × Peer → Outlet
  | ((sink, .ok ()), q) => ⟨{ q with outgoing := ms }, { w with sink }, none⟩
  | ((sink, .error e), q) =>
    ⟨{ q with outgoing := [], listening := false }, { sink, result := some (.error e) }, none⟩

theorem emit_eq_resume (q : Peer) (w : SessionWriter) (ms : List Message) (m : Message)
    (text : String) :
    emit ⟨{ q with outgoing := ms }, w, none⟩ m text =
      resume w ms (w.sink.writeFrame text, q.traceSent m) := by
  unfold emit
  simp only [Peer.traceSent_outgoing]
  cases w.sink.writeFrame text with
  | mk sink r => cases r <;> rfl

/-- A message is written in one attempt, or else in two. -/
theorem exists_attempts_writeMessage (p : Peer) (m : Message) (ms : List Message)
    (hw : w.result = none) :
    ∃ n, run (⟨{ p with outgoing := m :: ms }, w, none⟩ : Outlet) (List.replicate n .attempt) =
      resume w ms (p.writeMessage w.sink m) := by
  have hone : ∀ l : Outlet, run l (List.replicate 1 .attempt) = l.attempt := fun _ => rfl
  have htwo : ∀ l : Outlet, run l (List.replicate 2 .attempt) = l.attempt.attempt := fun _ => rfl
  cases h : p.codec.encodeText m with
  | mk r d =>
  have h' : (⟨{ p with outgoing := ms }, w, none⟩ : Outlet).peer.codec.encodeText m = (r, d) := h
  cases r with
  | ok text =>
    refine ⟨1, ?_⟩
    rw [hone, attempt_cons hw rfl rfl, tryMessage_of_ok _ _ h', Peer.writeMessage,
      Peer.encodeOutgoing_of_ok h]
    exact emit_eq_resume { p with codec := d } w ms m text
  | error e =>
    have hfirst : attempt ⟨{ p with outgoing := m :: ms }, w, none⟩ = _ :=
      (attempt_cons hw rfl rfl).trans (tryMessage_of_error _ _ h')
    cases hf : m.fallback? e with
    | none =>
      refine ⟨1, ?_⟩
      rw [hone, hfirst, hf, Peer.writeMessage, Peer.encodeOutgoing_of_unanswerable h hf]
      rfl
    | some m' =>
      refine ⟨2, ?_⟩
      rw [htwo, hfirst, hf, attempt_held hw rfl]
      cases ht : d.encodeText m' with
      | mk r' d' =>
      cases r' with
      | ok text =>
        rw [tryMessage_of_ok _ _ ht, Peer.writeMessage, Peer.encodeOutgoing_of_excuse h hf ht]
        exact emit_eq_resume { p.unencoded d "outgoing message" e with codec := d' } w ms m' text
      | error x =>
        rw [tryMessage_of_error _ _ ht, Peer.writeMessage, Peer.encodeOutgoing_of_lost h hf ht]
        rfl

/-- The writing task makes attempts until the queue is empty or one has failed. -/
theorem exists_attempts_writeMessages (p : Peer) (w : SessionWriter) (ms : List Message)
    (hw : w.result = none) :
    ∃ n, run (⟨{ p with outgoing := ms }, w, none⟩ : Outlet) (List.replicate n .attempt) =
      resume w [] (p.writeMessages w.sink ms) := by
  induction ms generalizing p w with
  | nil => exact ⟨0, rfl⟩
  | cons m ms ih =>
    obtain ⟨n, hn⟩ := exists_attempts_writeMessage (w := w) p m ms hw
    rw [Peer.writeMessages]
    cases h : p.writeMessage w.sink m with
    | mk r q =>
    obtain ⟨sink, r⟩ := r
    rw [h] at hn
    cases r with
    | error e => exact ⟨n, hn⟩
    | ok u =>
      obtain ⟨k, hk⟩ := ih q { w with sink } hw
      refine ⟨n + k, ?_⟩
      rw [List.replicate_add, run_append, hn]
      exact hk

theorem exists_attempts_run (p : Peer) (w : SessionWriter) (hc : p.closed = false) :
    ∃ n, run (⟨p, w, none⟩ : Outlet) (List.replicate n .attempt) =
      ⟨(w.run p).2, (w.run p).1, none⟩ := by
  cases hw : w.result with
  | some r => exact ⟨0, by simp [SessionWriter.run, hw, run]⟩
  | none =>
    obtain ⟨n, hn⟩ := exists_attempts_writeMessages { p with outgoing := [] } w p.outgoing hw
    refine ⟨n, hn.trans ?_⟩
    obtain ⟨d, ht⟩ := Peer.frame_writeMessages { p with outgoing := [] } w.sink p.outgoing
    cases h : Peer.writeMessages { p with outgoing := [] } w.sink p.outgoing with
    | mk r q =>
    obtain ⟨sink, r⟩ := r
    rw [h] at ht
    have ho : q.outgoing = [] := congrArg Tables.outgoing ht
    have hq : { q with outgoing := [] } = q := by rw [← ho]
    have hclosed : q.closed = false := (congrArg Tables.closed ht).trans hc
    cases r with
    | error e =>
      have hrun : w.run p =
          ({ sink, result := some (.error e) }, { q with listening := false }) := by
        simp only [SessionWriter.run, hw, SessionWriter.run.writeAll, h]
        rfl
      rw [hrun]
      exact congrArg (fun q : Peer => Outlet.mk { q with listening := false } _ none) hq
    | ok u =>
      have hrun : w.run p = ({ w with sink }, q) := by
        simp only [SessionWriter.run, hw, SessionWriter.run.writeAll, h, hclosed]
        rfl
      rw [hrun]
      exact congrArg (fun q : Peer => Outlet.mk q { w with sink } none) hq

end Outlet
end RpcPeer
