import RpcPeer.Proofs.Dispatcher.Served
import RpcPeer.Proofs.Session.Delivery
import RpcPeer.Proofs.Transcript.History
import RpcPeer.Proofs.Transcript.Unseen
import RpcPeer.Service.Simple

/-! What becomes of the requests that a transcript has seen come in. -/
namespace RpcPeer

/-- What can happen in a session. -/
inductive SessionMove
  /-- A frame comes in. -/
  | frame (text : String)
  /-- Something else happens to the peer. -/
  | turn (t : Turn)
  | event (method : String) (params : Payload)
  | wait (ms : Nat)
  /-- The reading task ends, and it may give up the requests that wait. -/
  | finish (abandon : Bool)
  /-- The writing task makes its next attempt. -/
  | attempt

def CallState.isSilent : CallState → Bool
  | ended (.silent _) _ => true
  | _ => false

namespace SessionMove

/-- The message that the transcript is shown. -/
def sighting? (l : Outlet) : SessionMove → Option Sighting
  | frame text =>
    match (l.peer.codec.decodeText l.peer.methodOf? text).result with
    | .ok m => some ⟨.received, m, l.peer.clock⟩
    | .error _ => none
  | attempt =>
    if l.writer.result.isSome then none
    else
      match l.queued with
      | [] => none
      | m :: _ =>
        if (m.fault? l.peer.codec.dialect).isNone then some ⟨.sent, m, l.peer.clock⟩ else none
  | _ => none

/-- The keys of the calls whose cancellation comes in with a frame. -/
def asked (l : Outlet) : SessionMove → List Nat
  | frame text =>
    match (l.peer.codec.decodeText l.peer.methodOf? text).result with
    | .ok m => (l.peer.calls.filter (m.cancels ·.id)).map (·.key)
    | .error _ => []
  | _ => []

/-- The calls that end without a response. -/
def silenced (l : Outlet) : SessionMove → List Call
  | turn (.act (.call key m)) =>
    l.peer.calls.filter fun c => c.key == key && (c.poll l.peer.dispatcher.surroundings m).isSilent
  | _ => []

end SessionMove

namespace Outlet

def step (l : Outlet) : SessionMove → Outlet
  | .frame text => { l with peer := l.peer.receiveText text }
  | .turn t => { l with peer := l.peer.turn t }
  | .event method params => { l with peer := l.peer.send (.notification method params) }
  | .wait ms => { l with peer := { l.peer with clock := l.peer.clock + ms } }
  | .finish abandon =>
    let p := if abandon then l.peer.abandonPending else l.peer
    { l with peer := Peer.closeUnheld { p with inSession := false } }
  | .attempt => l.attempt

def steps (l : Outlet) (ms : List SessionMove) : Outlet := ms.foldl step l

/-- What the transcript is shown in a run. -/
def sightings (l : Outlet) : List SessionMove → List Sighting
  | [] => []
  | m :: ms => (m.sighting? l).toList ++ (l.step m).sightings ms

/-- The keys of the calls whose cancellation has come in with a frame. -/
def asked (l : Outlet) : List SessionMove → List Nat
  | [] => []
  | m :: ms => m.asked l ++ (l.step m).asked ms

/-- A call with this id has ended in silence although no frame had cancelled it, and since then the
transcript has been shown nothing that bears on the id. -/
def Withdrawn (l : Outlet) (ms : List SessionMove) (id : MessageId) : Prop :=
  ∃ before m after, ms = before ++ m :: after ∧
    (∃ c ∈ m.silenced (l.steps before), c.id = id ∧ c.key ∉ l.asked before) ∧
    ∀ s ∈ (l.steps (before ++ [m])).sightings after, s.concerns .received id = false

variable {l : Outlet}

theorem steps_concat (l : Outlet) (ms : List SessionMove) (m : SessionMove) :
    l.steps (ms ++ [m]) = (l.steps ms).step m := by
  simp [steps]

theorem asked_concat (l : Outlet) (ms : List SessionMove) (m : SessionMove) :
    l.asked (ms ++ [m]) = l.asked ms ++ m.asked (l.steps ms) := by
  induction ms generalizing l with
  | nil => simp [asked, steps]
  | cons m' ms ih => simp [asked, steps, ih]

theorem sightings_concat (l : Outlet) (ms : List SessionMove) (m : SessionMove) :
    l.sightings (ms ++ [m]) = l.sightings ms ++ (m.sighting? (l.steps ms)).toList := by
  induction ms generalizing l with
  | nil => simp [sightings, steps]
  | cons m' ms ih => simp [sightings, steps, ih]

theorem Withdrawn.concat {ms : List SessionMove} {id : MessageId} (h : l.Withdrawn ms id)
    {m : SessionMove} (hm : ∀ s ∈ m.sighting? (l.steps ms), s.concerns .received id = false) :
    l.Withdrawn (ms ++ [m]) id := by
  obtain ⟨before, w, after, rfl, hc, hquiet⟩ := h
  refine ⟨before, w, after ++ [m], by simp, hc, fun s hs => ?_⟩
  rw [sightings_concat] at hs
  rcases List.mem_append.mp hs with hs | hs
  · exact hquiet s hs
  · refine hm s ?_
    have hsteps : (l.steps (before ++ [w])).steps after = l.steps (before ++ w :: after) := by
      simp [steps]
    rw [hsteps] at hs
    simpa using hs

end Outlet

theorem Sighting.of_opened {s : Sighting} {w : Way} {id : MessageId} {r : Started}
    (h : s.concerns w id = true) (hr : s.opened? = some r) : s.way = w ∧ r.id = id := by
  obtain ⟨v, m, now⟩ := s
  cases m with
  | request i method params =>
    cases hr
    simpa [concerns] using h
  | notification | response => cases hr

namespace Peer

variable {p : Peer}

theorem transcript_recordEntry (p : Peer) (e : TranscriptEntry) :
    (p.recordEntry e).transcript = p.transcript := by
  unfold recordEntry
  split <;> rfl

theorem transcript_traceReceived (p : Peer) (m : Message) :
    (p.traceReceived m).transcript =
      p.transcript.map fun t => (t.see ⟨.received, m, p.clock⟩).1 := by
  unfold traceReceived
  cases ht : p.transcript with
  | none => exact ht
  | some t => exact transcript_recordEntry _ _

theorem transcript_traceSent (p : Peer) (m : Message) :
    (p.traceSent m).transcript = p.transcript.map fun t => (t.see ⟨.sent, m, p.clock⟩).1 := by
  unfold traceSent
  cases ht : p.transcript with
  | none => exact ht
  | some t => exact transcript_recordEntry _ _

theorem clock_writeAll (p : Peer) (es : List LogEntry) : (p.writeAll es).clock = p.clock :=
  List.foldlRecOn (motive := fun q : Peer => q.clock = p.clock) es write rfl fun _ hq _ _ => hq

theorem dispatcher_traceReceived (p : Peer) (m : Message) :
    (p.traceReceived m).dispatcher = p.dispatcher := by
  unfold traceReceived recordEntry
  split
  · rfl
  · dsimp only
    split <;> rfl

theorem dispatcher_traceSent (p : Peer) (m : Message) :
    (p.traceSent m).dispatcher = p.dispatcher := by
  unfold traceSent recordEntry
  split
  · rfl
  · dsimp only
    split <;> rfl

/-- A call goes on, or its response is queued, or it ends in silence. -/
theorem fate_turn (h : p.dispatcher.Orderly) (hl : p.listening = true) (t : Turn) {c : Call}
    (hc : c ∈ p.calls) :
    (∃ d ∈ (p.turn t).calls, d.identity = c.identity) ∨
      (∃ o, .response (some c.id) (some c.method) o ∈ (p.turn t).outgoing) ∨
      ∃ m, t = .act (.call c.key m) ∧ (c.poll p.dispatcher.surroundings m).isSilent = true := by
  cases ht : c.turn p.dispatcher.surroundings t with
  | inFlight d =>
    exact .inl ⟨d, (mem_calls_turn h).mpr (.inl ⟨c, hc, ht⟩), (Call.of_turn_eq_inFlight ht).1⟩
  | ended e heard =>
    obtain ⟨m, rfl, hm⟩ := Call.of_turn_eq_ended ht
    refine .inr ?_
    cases e with
    | silent why => exact .inr ⟨m, rfl, by rw [hm]; rfl⟩
    | answered o =>
      have hb := brings_pollCall h hc m
      rw [hm] at hb
      have ho := outgoing_pollCall h hc m
      rw [hm, hb.1, hl] at ho
      refine .inl ⟨o, ?_⟩
      rw [show p.turn (.act (.call c.key m)) = p.pollCall c.key m from rfl, ho]
      simp [CallState.responses, Ending.responses]

/-- A request is taken up as a call with a new key, or refused with a response. -/
theorem taken_handleRequest (hl : p.listening = true) (id : MessageId) (method : String)
    (params : Payload) :
    (∃ c ∈ (p.handleRequest id method params).calls, c.id = id ∧ c.key = p.nextKey) ∨
      ∃ o, .response (some id) (some method) o ∈ (p.handleRequest id method params).outgoing := by
  have hresponse (q : Peer) (hq : q.listening = true) (o : Outcome) :
      .response (some id) (some method) o ∈ (q.respond id method o).outgoing := by
    have ho : (q.respond id method o).outgoing = _ := congrArg Tables.outgoing (tables_respond ..)
    rw [ho]
    simp [Tables.post, tables, hq]
  cases hk : p.codec.catalog.contains method with
  | false =>
    rw [handleRequest_of_unknown hk]
    exact .inr ⟨_, hresponse (p.log _ _) hl _⟩
  | true =>
    by_cases hu : ∃ c ∈ p.calls, c.id = id
    · obtain ⟨c, hc, rfl⟩ := hu
      rw [handleRequest_of_used hk hc]
      exact .inr ⟨_, hresponse p hl _⟩
    · have hfree : ∀ c ∈ p.calls, c.id ≠ id := fun c hc hi => hu ⟨c, hc, hi⟩
      rw [handleRequest_of_free hk hfree]
      exact .inl ⟨p.dispatcher.newCall id method params, by simp [wake], rfl, rfl⟩

end Peer

namespace Outlet

/-- A response with this id is in the queue. -/
def Answers (l : Outlet) (id : MessageId) : Prop :=
  ∃ method o, .response (some id) method o ∈ l.queued

/-- What a move does to the calls, the queue and the transcript as long as the writing task has not
failed: `seen` is what the transcript is shown, `asked` are the keys of the calls that it cancels
and `silenced` the calls that end without a response. -/
structure Passes (l l' : Outlet) (seen : Option Sighting) (asked : List Nat)
    (silenced : List Call) : Prop where
  transcript : l'.peer.transcript = l.peer.transcript.map fun t => seen.elim t fun s => (t.see s).1
  dialect : l'.peer.codec.dialect = l.peer.codec.dialect
  listening : l'.peer.listening = l.peer.listening
  orderly : l'.peer.dispatcher.Orderly
  nextKey : l.peer.nextKey ≤ l'.peer.nextKey
  held : ∀ m ∈ l'.held, m.fault? .base = none
  calls : ∀ c ∈ l.peer.calls,
    (∃ d ∈ l'.peer.calls, d.identity = c.identity) ∨ l'.Answers c.id ∨ c ∈ silenced
  answers : ∀ id, l.Answers id → l'.Answers id ∨ ∃ s ∈ seen, s.concerns .received id = true
  opened : ∀ s ∈ seen, ∀ r, s.way = .received → s.opened? = some r →
    (∃ c ∈ l'.peer.calls, c.id = r.id ∧ c.key = l.peer.nextKey) ∨ l'.Answers r.id
  asked : ∀ k ∈ asked, ∃ c ∈ l.peer.calls, c.key = k ∧
    ∃ s ∈ seen, s.concerns .received c.id = true

/-- A request that has come in has a call that nobody has asked to cancel or a response in the
queue, or it is gone. -/
def Accounted (l : Outlet) (asked : List Nat) (gone : MessageId → Prop) (id : MessageId) : Prop :=
  (∃ c ∈ l.peer.calls, c.id = id ∧ c.key ∉ asked) ∨ l.Answers id ∨ gone id

structure Booked (l : Outlet) (asked : List Nat) (gone : MessageId → Prop) : Prop where
  dialect : l.peer.codec.dialect = .base
  listening : l.peer.listening = true
  orderly : l.peer.dispatcher.Orderly
  below : ∀ k ∈ asked, k < l.peer.nextKey
  held : ∀ m ∈ l.held, m.fault? .base = none
  accounts : ∀ t, l.peer.transcript = some t → ∀ id r, Transcript.find? t.received id = some r →
    l.Accounted asked gone id

variable {l l' : Outlet} {seen : Option Sighting} {asked keys : List Nat} {silenced : List Call}
  {gone : MessageId → Prop}

/-- What is accounted for stays so as long as the transcript is shown nothing about it. -/
theorem Accounted.pass (h : l.Booked asked gone) (hp : l.Passes l' seen keys silenced)
    {id : MessageId} (ha : l.Accounted asked gone id)
    (hquiet : ∀ s ∈ seen, s.concerns .received id = false) :
    l'.Accounted (asked ++ keys)
      (fun id => (gone id ∧ ∀ s ∈ seen, s.concerns .received id = false) ∨
        ∃ c ∈ silenced, c.id = id ∧ c.key ∉ asked) id := by
  rcases ha with ⟨c, hc, rfl, hk⟩ | ha | hg
  · rcases hp.calls c hc with ⟨d, hd, hdc⟩ | ha | hs
    · have hkey : d.key = c.key := congrArg (·.1) hdc
      refine .inl ⟨d, hd, congrArg (·.2.1) hdc, fun hmem => ?_⟩
      rcases List.mem_append.mp (hkey ▸ hmem) with hmem | hmem
      · exact hk hmem
      · -- a frame that cancels this call bears on its id
        obtain ⟨b, hb, hbk, s, hs, hcon⟩ := hp.asked _ hmem
        obtain rfl := h.orderly.eq_of_key hb hc hbk
        simp [hquiet s hs] at hcon
    · exact .inr (.inl ha)
    · exact .inr (.inr (.inr ⟨c, hs, rfl, hk⟩))
  · rcases hp.answers id ha with ha | ⟨s, hs, hcon⟩
    · exact .inr (.inl ha)
    · simp [hquiet s hs] at hcon
  · exact .inr (.inr (.inl ⟨hg, hquiet⟩))

theorem Booked.pass (h : l.Booked asked gone) (hp : l.Passes l' seen keys silenced) :
    l'.Booked (asked ++ keys) fun id =>
      (gone id ∧ ∀ s ∈ seen, s.concerns .received id = false) ∨
        ∃ c ∈ silenced, c.id = id ∧ c.key ∉ asked where
  dialect := hp.dialect.trans h.dialect
  listening := hp.listening.trans h.listening
  orderly := hp.orderly
  below k hk := by
    have hkey := hp.nextKey
    rcases List.mem_append.mp hk with hk | hk
    · have := h.below k hk
      omega
    · obtain ⟨c, hc, rfl, -⟩ := hp.asked k hk
      have := h.orderly.below c hc
      exact Nat.lt_of_lt_of_le this hkey
  held := hp.held
  accounts t' ht' id r hr := by
    rw [hp.transcript] at ht'
    obtain ⟨t, ht, rfl⟩ := Option.map_eq_some_iff.mp ht'
    have hold : ∀ r, Transcript.find? t.received id = some r → l.Accounted asked gone id :=
      fun r hr => h.accounts t ht id r hr
    cases seen with
    | none => exact (hold r hr).pass h hp (by simp)
    | some s =>
      have hfind := Transcript.find?_see t s .received id
      rw [show Transcript.find? ((t.see s).1.table .received) id = some r from hr] at hfind
      cases hcon : s.concerns .received id with
      | false =>
        rw [hcon] at hfind
        exact (hold r hfind.symm).pass h hp (by simpa using hcon)
      | true =>
        rw [hcon, if_pos rfl] at hfind
        obtain ⟨hway, rfl⟩ := Sighting.of_opened hcon hfind.symm
        rcases hp.opened s rfl r hway hfind.symm with ⟨c, hc, hid, hkey⟩ | ha
        · refine .inl ⟨c, hc, hid, fun hmem => ?_⟩
          rcases List.mem_append.mp hmem with hmem | hmem
          · have := h.below _ hmem
            omega
          · obtain ⟨b, hb, hbk, -⟩ := hp.asked _ hmem
            have hlt : b.key < l.peer.nextKey := h.orderly.below b hb
            omega
        · exact .inr (.inl ha)

variable {p q : Peer}

theorem Answers.of_adds {id : MessageId} (h : l.Answers id) (ho : p.outgoing = l.peer.outgoing)
    (hq : p.Adds q) : ({ l with peer := q } : Outlet).Answers id := by
  obtain ⟨method, o, hmem⟩ := h
  refine ⟨method, o, ?_⟩
  rcases List.mem_append.mp hmem with hmem | hmem
  · exact List.mem_append_left _ hmem
  · exact List.mem_append_right _ (hq.outgoing.subset (ho ▸ hmem))

theorem Answers.of_mem {id : MessageId} {method : Option String} {o : Outcome}
    (h : .response (some id) method o ∈ q.outgoing) : ({ l with peer := q } : Outlet).Answers id :=
  ⟨method, o, List.mem_append_right _ h⟩

/-- The dispatcher has no part in the move, and the transcript is shown what is sent at most. -/
theorem passes_undispatched (h : l.Booked asked gone)
    (hd : l'.peer.dispatcher = l.peer.dispatcher)
    (hdialect : l'.peer.codec.dialect = l.peer.codec.dialect)
    (htranscript : l'.peer.transcript =
      l.peer.transcript.map fun t => seen.elim t fun s => (t.see s).1)
    (hway : ∀ s ∈ seen, s.way = .sent) (hheld : ∀ m ∈ l'.held, m.fault? .base = none)
    (hanswers : ∀ id, l.Answers id →
      l'.Answers id ∨ ∃ s ∈ seen, s.concerns .received id = true) : l.Passes l' seen [] [] where
  transcript := htranscript
  dialect := hdialect
  listening := congrArg (·.surroundings.listening) hd
  orderly := hd ▸ h.orderly
  nextKey := Nat.le_of_eq (congrArg Dispatcher.nextKey hd).symm
  held := hheld
  calls c hc := by
    have hcalls : l'.peer.calls = l.peer.calls := congrArg Dispatcher.calls hd
    exact .inl ⟨c, hcalls ▸ hc, rfl⟩
  answers := hanswers
  opened s hs r hr _ := by
    have hsent := hway s hs
    rw [hr] at hsent
    cases hsent
  asked k hk := by cases hk

theorem passes_quiet (h : l.Booked asked gone) (hq : l.peer.Adds q)
    (hd : q.dispatcher = l.peer.dispatcher) : l.Passes { l with peer := q } none [] [] := by
  have htranscript : q.transcript = l.peer.transcript.map fun t => t := by
    rw [Option.map_id']
    exact hq.transcript
  apply passes_undispatched h hd hq.dialect htranscript
  · simp
  · exact h.held
  · intro id ha
    exact .inl (ha.of_adds rfl hq)

theorem passes_turn (h : l.Booked asked gone) {t : Turn} (ht : ∀ b, t ≠ .act (.listen b)) :
    l.Passes (l.step (.turn t)) none [] ((SessionMove.turn t).silenced l) where
  transcript := (Peer.Adds.turn l.peer ht).transcript.trans (by cases l.peer.transcript <;> rfl)
  dialect := (Peer.Adds.turn l.peer ht).dialect
  listening := (Peer.Adds.turn l.peer ht).listening
  orderly := Peer.orderly_turn h.orderly t
  nextKey := Peer.nextKey_le_turn h.orderly t
  held := h.held
  calls c hc := by
    rcases Peer.fate_turn h.orderly h.listening t hc with hd | ⟨o, ho⟩ | ⟨m, rfl, hm⟩
    · exact .inl hd
    · exact .inr (.inl (.of_mem ho))
    · exact .inr (.inr (List.mem_filter.mpr ⟨hc, by simp [hm]⟩))
  answers id ha := .inl (ha.of_adds rfl (Peer.Adds.turn l.peer ht))
  opened s hs := nomatch hs
  asked k hk := nomatch hk

/-- The transcript has been shown a message, which the peer then takes in. -/
theorem passes_consume (h : l.Booked asked gone) {m : Message} {now : Nat}
    (htranscript : p.transcript =
      l.peer.transcript.map fun t => (t.see ⟨.received, m, now⟩).1)
    (ht : p.tables = l.peer.tables) (hd : p.dispatcher = l.peer.dispatcher) :
    l.Passes { l with peer := p.turn (.act (.consume m)) } (some ⟨.received, m, now⟩)
      ((l.peer.calls.filter (m.cancels ·.id)).map (·.key)) [] where
  transcript := (Peer.Adds.consume p m).transcript.trans htranscript
  dialect := (Peer.Adds.consume p m).dialect.trans (congrArg (·.codec.dialect) ht)
  listening := (Peer.Adds.consume p m).listening.trans (congrArg Tables.listening ht)
  orderly := Peer.orderly_turn (hd ▸ h.orderly) _
  nextKey := by
    have hkey : p.nextKey = l.peer.nextKey := congrArg Tables.nextKey ht
    exact hkey ▸ Peer.nextKey_le_turn (hd ▸ h.orderly) _
  held := h.held
  calls c hc := by
    have hcalls : p.calls = l.peer.calls := congrArg Tables.calls ht
    have hlisten : p.listening = true := (congrArg Tables.listening ht).trans h.listening
    rcases Peer.fate_turn (hd ▸ h.orderly) hlisten (.act (.consume m)) (hcalls ▸ hc) with
      hd | ⟨o, ho⟩ | ⟨m', hm', -⟩
    · exact .inl hd
    · exact .inr (.inl (.of_mem ho))
    · cases hm'
  answers id ha := .inl (ha.of_adds (congrArg Tables.outgoing ht) (Peer.Adds.consume p m))
  opened s hs r _ hr := by
    cases hs
    have hlisten : p.listening = true := (congrArg Tables.listening ht).trans h.listening
    cases m with
    | request id method params =>
      cases hr
      rcases Peer.taken_handleRequest hlisten id method params with ⟨c, hc, hid, hkey⟩ | ⟨o, ho⟩
      · exact .inl ⟨c, hc, hid, hkey.trans (congrArg Tables.nextKey ht)⟩
      · exact .inr (.of_mem ho)
    | notification | response => cases hr
  asked k hk := by
    obtain ⟨c, hc, rfl⟩ := List.mem_map.mp hk
    obtain ⟨hc, hm⟩ := List.mem_filter.mp hc
    refine ⟨c, hc, rfl, _, rfl, ?_⟩
    obtain ⟨params, rfl, hid⟩ := Message.cancels_eq_true hm
    simpa [Sighting.concerns] using hm

theorem passes_frame (h : l.Booked asked gone) (text : String) :
    l.Passes (l.step (.frame text)) ((SessionMove.frame text).sighting? l)
      ((SessionMove.frame text).asked l) [] := by
  have hlog : l.peer.Adds
      (l.peer.writeAll (l.peer.codec.decodeText l.peer.methodOf? text).log) :=
    (Peer.Adds.refl l.peer).writeAll _
  unfold step SessionMove.sighting? SessionMove.asked Peer.receiveText
  dsimp only
  cases hm : (l.peer.codec.decodeText l.peer.methodOf? text).result with
  | ok m =>
    refine passes_consume h ?_ ?_ ?_
    · rw [Peer.transcript_traceReceived, hlog.transcript, Peer.clock_writeAll]
    · rw [Peer.tables_traceReceived, Peer.tables_writeAll]
    · rw [Peer.dispatcher_traceReceived, Peer.dispatcher_writeAll]
  | error i =>
    refine passes_quiet h (hlog.handleIssue i) ?_
    exact (Peer.dispatcher_handleIssue _ i).trans (Peer.dispatcher_writeAll _ _)

theorem Message.fault?_fallback {m m' : Message} {e : EncodeError} (h : m.fallback? e = some m') :
    m'.fault? .base = none := by
  cases m with
  | request | notification => cases h
  | response id method o =>
    cases h
    cases id <;> rfl

/-- What an attempt leaves if the task has not failed: the transcript is shown the message, or
something takes its place. -/
structure Tried (l l' : Outlet) (m : Message) (excuse : EncodeError → Option Message) : Prop where
  dispatcher : l'.peer.dispatcher = l.peer.dispatcher
  dialect : l'.peer.codec.dialect = l.peer.codec.dialect
  outgoing : l'.peer.outgoing = l.peer.outgoing
  shown : (m.fault? l.peer.codec.dialect = none ∧ l'.held = l.held ∧ l'.peer.transcript =
      l.peer.transcript.map fun t => (t.see ⟨.sent, m, l.peer.clock⟩).1) ∨
    ∃ e, m.fault? l.peer.codec.dialect = some e ∧ l'.held = excuse e ∧
      l'.peer.transcript = l.peer.transcript

theorem tried_tryMessage (l : Outlet) (what : String) (m : Message)
    (excuse : EncodeError → Option Message)
    (hw : (l.tryMessage what m excuse).writer.result = none) :
    l.Tried (l.tryMessage what m excuse) m excuse := by
  have hd : (l.peer.codec.encodeText m).2.dialect = l.peer.codec.dialect := by
    rw [l.peer.codec.encodeText_eq_next m]
  have hcatalog : (l.peer.codec.encodeText m).2.catalog = l.peer.codec.catalog := by
    rw [l.peer.codec.encodeText_eq_next m]
  have hfault := l.peer.codec.failure?_encodeText m
  cases he : l.peer.codec.encodeText m with
  | mk r d =>
  rw [he] at hd hcatalog hfault
  have hdispatcher : ({ l.peer with codec := d } : Peer).dispatcher = l.peer.dispatcher :=
    congrArg (fun k => { l.peer.dispatcher with catalog := k }) hcatalog
  cases r with
  | error e =>
    rw [tryMessage_of_error what excuse he]
    exact ⟨hdispatcher, hd, rfl, .inr ⟨e, hfault.symm, rfl, rfl⟩⟩
  | ok text =>
    rw [tryMessage_of_ok what excuse he] at hw ⊢
    unfold emit at hw ⊢
    dsimp only at hw ⊢
    cases hs : l.writer.sink.writeFrame text with
    | mk sink r =>
    rw [hs] at hw
    cases r with
    | error e => cases hw
    | ok u =>
      have ht := Peer.tables_traceSent { l.peer with codec := d } m
      refine ⟨(Peer.dispatcher_traceSent _ m).trans hdispatcher, ?_, congrArg Tables.outgoing ht,
        .inl ⟨hfault.symm, rfl, Peer.transcript_traceSent _ m⟩⟩
      exact (congrArg (·.codec.dialect) ht).trans hd

/-- An attempt on the message `m`, which was first in the queue and has been taken off it. -/
theorem Tried.passes {l₀ : Outlet} {m : Message} {excuse : EncodeError → Option Message}
    (ht : l₀.Tried l' m excuse) (h : l.Booked asked gone)
    (hqueue : l.queued = m :: l₀.peer.outgoing) (hheld : l₀.held = none)
    (hpeer : l₀.peer = { l.peer with outgoing := l₀.peer.outgoing })
    (hexcuse : ∀ e, m.fault? .base = some e → excuse e = m.fallback? e) :
    l.Passes l'
      (if (m.fault? .base).isNone then some ⟨.sent, m, l.peer.clock⟩ else none) [] [] := by
  have hd : l'.peer.dispatcher = l.peer.dispatcher := ht.dispatcher.trans (by rw [hpeer]; rfl)
  have hdialect : l'.peer.codec.dialect = l.peer.codec.dialect :=
    ht.dialect.trans (by rw [hpeer])
  have hshown := ht.shown
  rw [hpeer] at hshown
  dsimp only at hshown
  rw [h.dialect, hheld] at hshown
  have hrest (id : MessageId) (method : Option String) (o : Outcome)
      (hmem : .response (some id) method o ∈ l₀.peer.outgoing) : l'.Answers id :=
    ⟨method, o, List.mem_append_right _ (ht.outgoing ▸ hmem)⟩
  rcases hshown with ⟨hf, hheld', hs⟩ | ⟨e, hf, hheld', hs⟩
  · rw [hf]
    refine passes_undispatched h hd hdialect hs ?_ ?_ ?_
    · simp
    · simp [hheld']
    · rintro id ⟨method, o, hmem⟩
      rw [hqueue] at hmem
      rcases List.mem_cons.mp hmem with rfl | hmem
      · exact .inr ⟨_, rfl, by simp [Sighting.concerns, Way.back]⟩
      · exact .inl (hrest id method o hmem)
  · rw [hf]
    have hfallback : l'.held = m.fallback? e := hheld'.trans (hexcuse e hf)
    apply passes_undispatched h hd hdialect (hs.trans (by cases l.peer.transcript <;> rfl))
    · simp
    · intro x hx
      rw [hfallback] at hx
      exact Message.fault?_fallback hx
    · rintro id ⟨method, o, hmem⟩
      rw [hqueue] at hmem
      rcases List.mem_cons.mp hmem with rfl | hmem
      · obtain ⟨o', ho'⟩ : ∃ o', (Message.response (some id) method o).fallback? e =
            some (.response (some id) method o') := ⟨_, rfl⟩
        exact .inl ⟨method, o', List.mem_append_left _ (by simp [hfallback, ho'])⟩
      · exact .inl (hrest id method o hmem)

/-- As long as the writing task does not fail. -/
theorem passes_attempt (h : l.Booked asked gone) (hw : l.attempt.writer.result = none) :
    l.Passes l.attempt (SessionMove.attempt.sighting? l) [] [] := by
  cases hr : l.writer.result with
  | some r =>
    have hstay : l.attempt = l := by simp [attempt, hr]
    rw [hstay, hr] at hw
    cases hw
  | none =>
    simp only [SessionMove.sighting?, hr, h.dialect]
    cases hheld : l.held with
    | some m =>
      have hqueue : l.queued = m :: l.peer.outgoing := by simp [queued, hheld]
      rw [attempt_held hr hheld] at hw ⊢
      rw [hqueue]
      refine (tried_tryMessage _ _ _ _ hw).passes h hqueue rfl rfl fun e he => ?_
      rw [h.held m hheld] at he
      cases he
    | none =>
      cases ho : l.peer.outgoing with
      | nil =>
        have hstay : l.attempt = l := by simp [attempt, hr, hheld, ho]
        rw [hstay]
        simp only [queued, hheld, ho]
        exact passes_quiet h (.refl _) rfl
      | cons m rest =>
        have hqueue : l.queued = m :: rest := by simp [queued, hheld, ho]
        rw [attempt_cons hr hheld ho] at hw ⊢
        rw [hqueue]
        exact (tried_tryMessage _ _ _ _ hw).passes h hqueue hheld rfl fun _ _ => rfl

theorem passes_step (h : l.Booked asked gone) {m : SessionMove}
    (hm : ∀ b, m ≠ .turn (.act (.listen b))) (hw : (l.step m).writer.result = none) :
    l.Passes (l.step m) (m.sighting? l) (m.asked l) (m.silenced l) := by
  cases m with
  | frame text => exact passes_frame h text
  | turn t => exact passes_turn h fun b hb => hm b (congrArg _ hb)
  | event method params =>
    exact passes_quiet h ((Peer.Adds.refl _).send _) (Peer.dispatcher_send _ _)
  | wait ms => exact passes_quiet h (.of_eq rfl rfl rfl rfl) rfl
  | finish abandon =>
    cases abandon with
    | false =>
      exact passes_quiet h (.closeUnheld (.of_eq rfl rfl rfl rfl)) (Peer.dispatcher_closeUnheld _)
    | true =>
      refine passes_quiet h (.closeUnheld (.trans (.abandonPending (.refl _)) ?_)) ?_
      · exact .of_eq rfl rfl rfl rfl
      · exact (Peer.dispatcher_closeUnheld _).trans (Peer.dispatcher_abandonPending _)
  | attempt => exact passes_attempt h hw

theorem result_step {m : SessionMove} (hw : (l.step m).writer.result = none) :
    l.writer.result = none := by
  cases m with
  | frame | turn | event | wait | finish => exact hw
  | attempt =>
    rcases l.attempt_cases with he | ⟨hr, -⟩
    · exact he ▸ hw
    · exact hr

/-- The start of a session of the base dialect with a transcript. -/
structure Traced (l : Outlet) : Prop where
  transcript : l.peer.transcript = some {}
  dialect : l.peer.codec.dialect = .base
  listening : l.peer.listening = true
  calls : l.peer.calls = []
  held : l.held = none

theorem Traced.booked (h : l.Traced) : l.Booked [] (l.Withdrawn []) where
  dialect := h.dialect
  listening := h.listening
  orderly := Peer.orderly_of_calls_nil h.calls
  below k hk := nomatch hk
  held m hm := nomatch h.held.symm.trans hm
  accounts t ht id r hr := by
    obtain rfl := Option.some.inj (h.transcript.symm.trans ht)
    cases hr

theorem Traced.booked_steps (h : l.Traced) (ms : List SessionMove)
    (hlisten : ∀ b, .turn (.act (.listen b)) ∉ ms) (hw : (l.steps ms).writer.result = none) :
    (l.steps ms).Booked (l.asked ms) (l.Withdrawn ms) := by
  induction ms using List.reverseRecOn with
  | nil => exact h.booked
  | append_singleton ms m ih =>
    rw [steps_concat] at hw ⊢
    have hb := ih (fun b hb => hlisten b (List.mem_append_left _ hb)) (result_step hw)
    have hm : ∀ b, m ≠ .turn (.act (.listen b)) := fun b hb => hlisten b (by simp [hb])
    rw [asked_concat]
    have hpass := hb.pass (passes_step hb hm hw)
    refine { hpass with accounts := fun t ht id r hr => ?_ }
    rcases hpass.accounts t ht id r hr with hc | ha | ⟨hg, hquiet⟩ | hs
    · exact .inl hc
    · exact .inr (.inl ha)
    · exact .inr (.inr (hg.concat hquiet))
    · exact .inr (.inr ⟨ms, m, [], rfl, hs, by simp [sightings]⟩)

/-- The transcript of a run is that of what it has been shown. -/
theorem Traced.transcript_steps (h : l.Traced) (ms : List SessionMove)
    (hlisten : ∀ b, .turn (.act (.listen b)) ∉ ms) (hw : (l.steps ms).writer.result = none) :
    (l.steps ms).peer.transcript = some (Transcript.ofHistory (l.sightings ms)) := by
  induction ms using List.reverseRecOn with
  | nil => exact h.transcript
  | append_singleton ms m ih =>
    have hbefore : ∀ b, .turn (.act (.listen b)) ∉ ms := fun b hb =>
      hlisten b (List.mem_append_left _ hb)
    have hm : ∀ b, m ≠ .turn (.act (.listen b)) := fun b hb => hlisten b (by simp [hb])
    rw [steps_concat] at hw ⊢
    have hb := h.booked_steps ms hbefore (result_step hw)
    rw [(passes_step hb hm hw).transcript, ih hbefore (result_step hw), sightings_concat]
    cases m.sighting? (l.steps ms) with
    | none => simp
    | some s => simp [Transcript.ofHistory_concat]

/-- Once no call is in flight and the writing task has come to the end of the queue and has not
failed, every request that the transcript still knows belongs to a call that has ended in silence
although no frame had cancelled it; if there is no such call, it knows none. -/
theorem drained_received_withdrawn (l : Outlet) (hl : l.Traced) (ms : List SessionMove)
    (hlisten : ∀ b, .turn (.act (.listen b)) ∉ ms) (hcalls : (l.steps ms).peer.calls = [])
    (hempty : (l.steps ms).queued = []) (hw : (l.steps ms).writer.result = none) :
    ∃ t, (l.steps ms).peer.transcript = some t ∧ t = Transcript.ofHistory (l.sightings ms) ∧
      (∀ r ∈ t.received, l.Withdrawn ms r.id) ∧
      ((∀ id, ¬ l.Withdrawn ms id) → t.received = []) := by
  have ht := hl.transcript_steps ms hlisten hw
  have hknown : ∀ r ∈ (Transcript.ofHistory (l.sightings ms)).received, l.Withdrawn ms r.id := by
    intro r hr
    obtain ⟨r', hr'⟩ : ∃ r',
        Transcript.find? (Transcript.ofHistory (l.sightings ms)).received r.id = some r' :=
      Option.isSome_iff_exists.mp (List.find?_isSome.mpr ⟨r, hr, by simp⟩)
    rcases (hl.booked_steps ms hlisten hw).accounts _ ht r.id r' hr' with
      ⟨c, hc, -⟩ | ⟨method, o, hmem⟩ | hgone
    · rw [hcalls] at hc
      cases hc
    · rw [hempty] at hmem
      cases hmem
    · exact hgone
  refine ⟨_, ht, rfl, hknown, fun hnone => List.eq_nil_iff_forall_not_mem.mpr fun r hr => ?_⟩
  exact hnone r.id (hknown r hr)

/-- One call whose handler reports a cancellation that nobody has asked for, and one that is
answered. -/
theorem drained_received_withdrawn_two_calls :
    let p : Peer :=
      { codec := ⟨.base, ⟨[⟨"quit", .request, .unit, some .json⟩]⟩, 1⟩
        service := (Service.empty "").onRequest "quit" (.fail .unit .cancelled)
        transcript := some {} }
    let l : Outlet := ⟨p, {}, none⟩
    let ms : List SessionMove :=
      [.frame "\x7b\"jsonrpc\":\"2.0\",\"id\":5,\"method\":\"quit\"\x7d",
        .frame "\x7b\"jsonrpc\":\"2.0\",\"id\":6,\"method\":\"quit\"\x7d",
        .turn (.act (.call 0 .run)), .turn (.act (.call 1 (.settle (.value .absent)))), .attempt]
    l.Traced ∧ (l.steps ms).peer.calls = [] ∧ (l.steps ms).queued = [] ∧
      (l.steps ms).writer.result = none ∧
      (l.steps ms).peer.transcript.map (·.received.map (·.id)) = some [.number 5] ∧
      l.Withdrawn ms (.number 5) := by
  intro p l ms
  have hl : l.Traced := ⟨rfl, rfl, rfl, rfl, rfl⟩
  have hlisten : ∀ b, .turn (.act (.listen b)) ∉ ms := by simp [ms]
  have hcalls : (l.steps ms).peer.calls = [] := by
    apply List.eq_nil_of_length_eq_zero
    decide +kernel
  have hempty : (l.steps ms).queued = [] := by
    apply List.eq_nil_of_length_eq_zero
    decide +kernel
  have hw : (l.steps ms).writer.result = none := by
    apply Option.isNone_iff_eq_none.mp
    decide +kernel
  have hids : (l.steps ms).peer.transcript.map (·.received.map (·.id)) = some [.number 5] := by
    decide +kernel
  obtain ⟨t, ht, -, hknown, -⟩ := drained_received_withdrawn l hl ms hlisten hcalls hempty hw
  refine ⟨hl, hcalls, hempty, hw, hids, ?_⟩
  rw [ht] at hids
  have hlist : t.received.map (·.id) = [.number 5] := Option.some.inj hids
  have hmem : MessageId.number 5 ∈ t.received.map (·.id) := by simp [hlist]
  obtain ⟨r, hr, hid⟩ := List.mem_map.mp hmem
  exact hid ▸ hknown r hr

/-- A request whose call has been withdrawn stays known for good. -/
theorem withdrawn_stays_known :
    ¬ ∀ (l : Outlet) (ms : List SessionMove), l.Traced →
      (∀ b, .turn (.act (.listen b)) ∉ ms) → (l.steps ms).peer.calls = [] →
      (l.steps ms).queued = [] → (l.steps ms).writer.result = none →
      ∀ t, (l.steps ms).peer.transcript = some t → t.received = [] := by
  intro h
  let p : Peer :=
    { codec := ⟨.base, ⟨[⟨"quit", .request, .unit, some .json⟩]⟩, 1⟩
      service := (Service.empty "").onRequest "quit" (.fail .unit .cancelled)
      transcript := some {} }
  let l : Outlet := ⟨p, {}, none⟩
  let ms : List SessionMove :=
    [.frame "\x7b\"jsonrpc\":\"2.0\",\"id\":5,\"method\":\"quit\"\x7d", .turn (.act (.call 0 .run))]
  have hcalls : (l.steps ms).peer.calls = [] := by
    apply List.eq_nil_of_length_eq_zero
    decide +kernel
  have hempty : (l.steps ms).queued = [] := by
    apply List.eq_nil_of_length_eq_zero
    decide +kernel
  have hids : (l.steps ms).peer.transcript.map (·.received.map (·.id)) = some [.number 5] := by
    decide +kernel
  obtain ⟨t, ht, hid⟩ := Option.map_eq_some_iff.mp hids
  rw [h l ms ⟨rfl, rfl, rfl, rfl, rfl⟩ (by simp [ms]) hcalls hempty rfl t ht] at hid
  cases hid

end Outlet
end RpcPeer
