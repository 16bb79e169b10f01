import RpcPeer.Proofs.Dialect.Encoding
import RpcPeer.Proofs.Frame.Stream
import RpcPeer.Proofs.Peer.Tables
import RpcPeer.Session.Writer

/-! Writing the queue of a session, message by message. -/
namespace RpcPeer
open Steps

/-- The error that takes the place of an outcome that cannot be encoded. -/
def EncodeError.outcome (e : EncodeError) : Outcome :=
  .error (.ofCode .internalError s!"Failed to encode response: {e.message}")

theorem Message.fault?_excuse (d : Dialect) (id : Option MessageId) (method : Option String)
    (e : EncodeError) : (Message.response id method e.outcome).fault? d = d.idFault? id := by
  simp [fault?, payload?, EncodeError.outcome, id?]

/-- What goes out for a message: the message itself if it can be encoded, an error in its place if
it is a response whose id can be written, and otherwise nothing. -/
def Message.written? (d : Dialect) (m : Message) : Option Message :=
  match m.fault? d, m with
  | none, m => some m
  | some e, .response id method _ =>
    if d.writesId id then some (.response id method e.outcome) else none
  | some _, _ => none

theorem Message.written?_response {d : Dialect} {id : Option MessageId}
    (h : d.writesId id = true) (method : Option String) (o : Outcome) :
    ∃ o', (response id method o).written? d = some (.response id method o') := by
  unfold written?
  cases (response id method o).fault? d with
  | none => exact ⟨o, rfl⟩
  | some e => exact ⟨e.outcome, if_pos h⟩

namespace Codec

/-- What is written for one message, and the codec that this leaves: the text of the message if it
can be encoded, the text of an error for a response that cannot be but whose id can be written, and
nothing for anything else. -/
inductive Writes (c : Codec) : Message → Option String → Codec → Prop
  | own {m : Message} {text : String} (h : (c.encodeText m).1 = .ok text) :
    c.Writes m (some text) (c.encodeText m).2
  | excuse {id : Option MessageId} {method : Option String} {o : Outcome} {e : EncodeError}
      {text : String} {d : Codec} (h : c.encodeText (.response id method o) = (.error e, d))
      (hid : c.dialect.writesId id = true)
      (ht : (d.encodeText (.response id method e.outcome)).1 = .ok text) :
    c.Writes (.response id method o) (some text) (d.encodeText (.response id method e.outcome)).2
  | nothing {m : Message} {e : EncodeError} (h : (c.encodeText m).1 = .error e)
      (hm : ∀ id method o, m = .response id method o → c.dialect.writesId id = false) :
    c.Writes m none (c.encodeText m).2

/-- What is written for a queue of messages, each on the codec that those before it have left. -/
inductive WritesAll : Codec → List Message → List String → Codec → Prop
  | nil (c : Codec) : WritesAll c [] [] c
  | cons {c d d' : Codec} {m : Message} {ms : List Message} {text : Option String}
      {texts : List String} (h : c.Writes m text d) (hs : WritesAll d ms texts d') :
    WritesAll c (m :: ms) (text.toList ++ texts) d'

variable {c d : Codec} {m : Message} {text : Option String}

theorem fault?_of_encodeText_ok {t : String} (h : (c.encodeText m).1 = .ok t) :
    m.fault? c.dialect = none := by
  rw [← c.failure?_encodeText, h]
  rfl

theorem fault?_of_encodeText_error {e : EncodeError} (h : (c.encodeText m).1 = .error e) :
    m.fault? c.dialect = some e := by
  rw [← c.failure?_encodeText, h]
  rfl

theorem Writes.eq_next (h : c.Writes m text d) : d = { c with next := d.next } := by
  cases h with
  | own => exact c.encodeText_eq_next m
  | @excuse id method o e text d h =>
    have hd : d = { c with next := d.next } := by
      have := c.encodeText_eq_next (.response id method o)
      rwa [h] at this
    have h' := d.encodeText_eq_next (.response id method e.outcome)
    rw [h', hd]
  | nothing => exact c.encodeText_eq_next m

/-- Of what is written for a message only the number depends on the messages before it. -/
theorem Writes.eq_written? (h : c.Writes m text d) :
    (m.written? c.dialect = none ∧ text = none) ∨
      ∃ m' t n, m.written? c.dialect = some m' ∧ text = some t ∧
        (({ c with next := n } : Codec).encodeText m').1 = .ok t := by
  cases h with
  | @own m t h =>
    have hw : m.written? c.dialect = some m := by
      simp only [Message.written?, fault?_of_encodeText_ok h]
    exact .inr ⟨m, t, c.next, hw, rfl, h⟩
  | @excuse id method o e t d h hid ht =>
    have hf := fault?_of_encodeText_error (congrArg Prod.fst h)
    have hd : d = { c with next := d.next } := by
      have := c.encodeText_eq_next (.response id method o)
      rwa [h] at this
    rw [hd] at ht
    refine .inr ⟨_, t, d.next, ?_, rfl, ht⟩
    simp only [Message.written?, hf, hid, if_true]
  | @nothing m e h hm =>
    have hf := fault?_of_encodeText_error h
    refine .inl ⟨?_, rfl⟩
    cases m with
    | request | notification => simp only [Message.written?, hf]
    | response id method o =>
      simp only [Message.written?, hf, hm id method o rfl, Bool.false_eq_true, if_false]

theorem WritesAll.forall₂ {ms : List Message} {texts : List String}
    (h : WritesAll c ms texts d) :
    List.Forall₂ (fun m t => ∃ n, (({ c with next := n } : Codec).encodeText m).1 = .ok t)
      (ms.filterMap (·.written? c.dialect)) texts := by
  induction h with
  | nil c => exact .nil
  | @cons c d d' m ms text texts h hs ih =>
    rw [h.eq_next] at ih
    rcases h.eq_written? with ⟨hw, rfl⟩ | ⟨m', t, n, hw, rfl, ht⟩
    · rw [List.filterMap_cons_none hw]
      exact ih
    · rw [List.filterMap_cons_some hw]
      exact .cons ⟨n, ht⟩ ih

end Codec

namespace Peer

variable {p : Peer} {m : Message}

@[simp] theorem tables_traceSent (p : Peer) (m : Message) : (p.traceSent m).tables = p.tables := by
  unfold traceSent
  split
  · rfl
  · rw [tables_recordEntry]
    rfl

/-- The peer after a message could not be encoded. -/
def unencoded (p : Peer) (d : Codec) (what : String) (e : EncodeError) : Peer :=
  { p with codec := d }.log .error s!"Failed to encode {what}: {e.message}"

section
variable {m' : Message} {d d' : Codec} {e e' : EncodeError} {text : String}

theorem encodeOutgoing_of_ok (h : p.codec.encodeText m = (.ok text, d)) :
    p.encodeOutgoing m = (some (m, text), { p with codec := d }) := by
  simp only [encodeOutgoing, h]

theorem encodeOutgoing_of_unanswerable (h : p.codec.encodeText m = (.error e, d))
    (hf : m.fallback? e = none) :
    p.encodeOutgoing m = (none, p.unencoded d "outgoing message" e) := by
  simp only [encodeOutgoing, h, hf]
  rfl

theorem encodeOutgoing_of_excuse (h : p.codec.encodeText m = (.error e, d))
    (hf : m.fallback? e = some m') (ht : d.encodeText m' = (.ok text, d')) :
    p.encodeOutgoing m =
      (some (m', text), { p.unencoded d "outgoing message" e with codec := d' }) := by
  simp only [encodeOutgoing, h, hf]
  simp only [log, write, record, ht]
  rfl

theorem encodeOutgoing_of_lost (h : p.codec.encodeText m = (.error e, d))
    (hf : m.fallback? e = some m') (ht : d.encodeText m' = (.error e', d')) :
    p.encodeOutgoing m =
      (none, (p.unencoded d "outgoing message" e).unencoded d' "error response" e') := by
  simp only [encodeOutgoing, h, hf]
  simp only [log, write, record, ht]
  rfl

end

/-- For one message what should be is written, and nothing else in the tables moves. -/
theorem writes_encodeOutgoing (p : Peer) (m : Message) :
    ∃ d r q, p.codec.Writes m (r.map (·.2)) d ∧ q.tables = { p.tables with codec := d } ∧
      p.encodeOutgoing m = (r, q) := by
  cases h : p.codec.encodeText m with
  | mk r d =>
  have hd : d = (p.codec.encodeText m).2 := congrArg Prod.snd h.symm
  cases r with
  | ok text =>
    have ht : (p.codec.encodeText m).1 = .ok text := congrArg Prod.fst h
    exact ⟨d, some (m, text), _, hd ▸ .own ht, rfl, encodeOutgoing_of_ok h⟩
  | error e =>
    have he : (p.codec.encodeText m).1 = .error e := congrArg Prod.fst h
    cases m with
    | request | notification =>
      exact ⟨d, none, _, hd ▸ .nothing he nofun, rfl, encodeOutgoing_of_unanswerable h rfl⟩
    | response id method o =>
      have hdialect : d.dialect = p.codec.dialect := by
        rw [hd, p.codec.encodeText_eq_next]
      have hfault : failure? (d.encodeText (.response id method e.outcome)).1 =
          d.dialect.idFault? id := by
        rw [Codec.failure?_encodeText, Message.fault?_excuse]
      cases hid : d.dialect.writesId id with
      | true =>
        rw [(Dialect.idFault?_eq_none_iff _ _).mpr hid] at hfault
        obtain ⟨text, ht⟩ := exists_ok hfault
        exact ⟨_, some (_, text), _, .excuse h (hdialect ▸ hid) ht, rfl,
          encodeOutgoing_of_excuse h rfl (Prod.ext ht rfl)⟩
      | false =>
        -- the error in its place has the same id, which fails again and takes no number
        obtain ⟨e', he'⟩ : ∃ e', d.dialect.idFault? id = some e' := by
          apply Option.ne_none_iff_exists'.mp
          rw [Ne, Dialect.idFault?_eq_none_iff, hid]
          exact Bool.false_ne_true
        have hlost : d.encodeText (.response id method e.outcome) = (.error e', d) :=
          Prod.ext (eq_error (hfault.trans he')) (Codec.encodeText_of_not_writesId hid ..)
        refine ⟨d, none, _, hd ▸ .nothing he ?_, rfl, encodeOutgoing_of_lost h rfl hlost⟩
        intro i method' o' hm
        cases hm
        exact hdialect ▸ hid

/-- With room for everything a queue is written as it should be, to its end. -/
theorem writes_writeMessages (p : Peer) {s : Sink} (hs : s.room = none) (ms : List Message) :
    ∃ texts d q, p.codec.WritesAll ms texts d ∧ q.tables = { p.tables with codec := d } ∧
      p.writeMessages s ms =
        (({ s with chunks := s.chunks ++ texts.flatMap fun t => [Frame.header t, t] }, .ok ()),
          q) := by
  induction ms generalizing p s with
  | nil =>
    refine ⟨[], p.codec, p, .nil _, rfl, ?_⟩
    rw [List.flatMap_nil, List.append_nil]
    rfl
  | cons m ms ih =>
    obtain ⟨d, r, q, hw, hq, he⟩ := p.writes_encodeOutgoing m
    have hd : q.codec = d := congrArg Tables.codec hq
    cases r with
    | none =>
      obtain ⟨texts, d', q', hall, hq', he'⟩ := ih q hs
      refine ⟨texts, d', q', .cons hw (hd ▸ hall), ?_, ?_⟩
      · rw [hq', hq]
      · rw [writeMessages, writeMessage, he]
        exact he'
    | some x =>
      obtain ⟨m', text⟩ := x
      obtain ⟨texts, d', q', hall, hq', he'⟩ := ih (q.traceSent m')
        (s := { s with chunks := s.chunks ++ [Frame.header text, text] }) hs
      have hframe : s.writeFrame text =
          ({ s with chunks := s.chunks ++ [Frame.header text, text] }, .ok ()) := by
        simp [Sink.writeFrame, Sink.write, hs]
      have ht : (q.traceSent m').codec = d :=
        (congrArg Tables.codec (tables_traceSent q m')).trans hd
      refine ⟨text :: texts, d', q', .cons hw (ht ▸ hall), ?_, ?_⟩
      · rw [hq', tables_traceSent, hq]
      · rw [writeMessages, writeMessage, he]
        simp only [hframe, he']
        simp

end Peer

namespace SessionWriter

/-- The writing task, with room for everything, writes what is queued in the order of the queue: a
frame for every message that can be encoded, a frame with an error in its place for a response that
cannot be but whose id can be written, and nothing else. Which messages these are, and all of their
texts but the numbers, does not depend on the rest of the queue. The task neither fails nor stops
before the queue does. -/
theorem run_writes_queue (w : SessionWriter) (p : Peer) (hw : w.result = none)
    (hs : w.sink.room = none) :
    ∃ texts,
      p.codec.WritesAll p.outgoing texts (w.run p).2.codec ∧
      (w.run p).1.sink.chunks =
        w.sink.chunks ++ texts.flatMap (fun t => [Frame.header t, t]) ∧
      (w.run p).1.result = (if p.closed then some (.ok ()) else none) ∧
      (w.run p).2.outgoing = [] ∧
      List.Forall₂ (fun m t => ∃ n, (({ p.codec with next := n } : Codec).encodeText m).1 = .ok t)
        (p.outgoing.filterMap (·.written? p.codec.dialect)) texts ∧
      ∀ id method o, .response id method o ∈ p.outgoing → p.codec.dialect.writesId id = true →
        ∃ o', .response id method o' ∈ p.outgoing.filterMap (·.written? p.codec.dialect) := by
  obtain ⟨texts, d, q, hall, hq, he⟩ :=
    Peer.writes_writeMessages { p with outgoing := [] } hs p.outgoing
  have hc : q.codec = d := congrArg Tables.codec hq
  have hclosed : q.closed = p.closed := congrArg Tables.closed hq
  have ho : q.outgoing = [] := congrArg Tables.outgoing hq
  have hrun : w.run p = if p.closed then
      ({ sink := { w.sink with
          chunks := w.sink.chunks ++ texts.flatMap fun t => [Frame.header t, t] },
         result := some (.ok ()) },
        q.log .debug "Outgoing channel closed, terminating write loop")
      else ({ w with sink := { w.sink with
          chunks := w.sink.chunks ++ texts.flatMap fun t => [Frame.header t, t] } }, q) := by
    simp only [run, hw, run.writeAll, he, hclosed]
    rfl
  refine ⟨texts, ?_, ?_, ?_, ?_, hall.forall₂, ?_⟩
  · rw [hrun]
    split <;> exact hc ▸ hall
  · rw [hrun]
    split <;> rfl
  · rw [hrun]
    split
    · rfl
    · exact hw
  · rw [hrun]
    split <;> exact ho
  · intro id method o hm hid
    obtain ⟨o', ho'⟩ := Message.written?_response hid method o
    exact ⟨o', List.mem_filterMap.mpr ⟨_, hm, ho'⟩⟩

/-- An event, a request and a response under an id that is no number, and a response whose result
cannot be written. -/
theorem run_writes_queue_excuse :
    let broken : Outcome := .result (.typed "T" (.sealed "closed"))
    let p : Peer :=
      { codec := ⟨.debug, ⟨[]⟩, 1⟩, service := .empty ""
        outgoing := [.notification "ready" .absent, .request (.text "x") "run" .absent,
          .response (some (.text "x")) none (.result .absent),
          .response (some (.number 7)) (some "run") broken] }
    (({} : SessionWriter).run p).1.sink.chunks.length = 4 ∧
      ∃ o, .response (some (.number 7)) (some "run") o ∈
        p.outgoing.filterMap (·.written? .debug) := by
  intro broken p
  obtain ⟨texts, -, hchunks, -, -, hall, hlost⟩ := run_writes_queue {} p rfl rfl
  have hlen : 2 = texts.length := hall.length_eq
  refine ⟨?_, hlost (some (.number 7)) (some "run") broken (by simp [p]) rfl⟩
  rw [hchunks]
  simp [← hlen]

end SessionWriter
end RpcPeer
