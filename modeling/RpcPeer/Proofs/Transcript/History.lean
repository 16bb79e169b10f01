import Mathlib.Data.List.Induction
import RpcPeer.Proofs.Peer.Effects
import RpcPeer.Transcript

/-! What a transcript tells about a response, over whole histories. -/
namespace RpcPeer

theorem Message.cancels_eq_true {m : Message} {id : MessageId} (h : m.cancels id = true) :
    ∃ params, m = .notification Message.cancelMethod params ∧
      CancelParams.decode params = .ok id := by
  cases m with
  | request => cases h
  | response => cases h
  | notification method params =>
    rw [cancels, Bool.and_eq_true, beq_iff_eq] at h
    obtain ⟨rfl, hid⟩ := h
    cases hd : CancelParams.decode params with
    | error e => simp [hd] at hid
    | ok i =>
      simp only [hd, beq_iff_eq] at hid
      exact ⟨params, rfl, hid ▸ hd⟩

/-- The direction of a message. -/
inductive Way where
  | sent
  | received
deriving DecidableEq, Repr

def Way.back : Way → Way
  | sent => received
  | received => sent

theorem Way.back_injective {v w : Way} (h : v.back = w.back) : v = w := by
  cases v <;> cases w <;> first | rfl | cases h

/-- A message that goes by, with its direction and the time. -/
structure Sighting where
  way : Way
  message : Message
  now : Nat

namespace Sighting

/-- Requests with an id and cancellations of it go one way, responses to it come back. -/
def concerns (w : Way) (id : MessageId) (s : Sighting) : Bool :=
  match s.message with
  | .request i .. => s.way == w && i == id
  | .notification method params => s.way == w && (Message.notification method params).cancels id
  | .response i .. => s.way == w.back && i == some id

/-- The request that waits from now on. -/
def opened? (s : Sighting) : Option Started :=
  match s.message with
  | .request id method _ => some ⟨id, method, s.now⟩
  | _ => none

/-- No message bears on two cells. -/
theorem concerns_unique {s : Sighting} {v w : Way} {i id : MessageId}
    (h : s.concerns v i = true) (h' : s.concerns w id = true) : v = w ∧ i = id := by
  obtain ⟨u, m, now⟩ := s
  cases m with
  | request j method params =>
    simp only [concerns, Bool.and_eq_true, beq_iff_eq] at h h'
    exact ⟨h.1.symm.trans h'.1, h.2.symm.trans h'.2⟩
  | notification method params =>
    simp only [concerns, Bool.and_eq_true, beq_iff_eq] at h h'
    obtain ⟨p, hp, hi⟩ := Message.cancels_eq_true h.2
    obtain ⟨q, hq, hid⟩ := Message.cancels_eq_true h'.2
    cases hp
    cases hq
    exact ⟨h.1.symm.trans h'.1, Except.ok.inj (hi.symm.trans hid)⟩
  | response j method o =>
    simp only [concerns, Bool.and_eq_true, beq_iff_eq] at h h'
    exact ⟨Way.back_injective (h.1.symm.trans h'.1), Option.some.inj (h.2.symm.trans h'.2)⟩

end Sighting

/-- The last message of a history that bears on an id is a request with it. -/
def LastRequest (w : Way) (id : MessageId) (m : String) (since : Nat) (h : List Sighting) : Prop :=
  ∃ params, (h.filter (·.concerns w id)).getLast? = some ⟨w, .request id m params, since⟩

namespace Transcript

def table (t : Transcript) : Way → List Started
  | .sent => t.sent
  | .received => t.received

def see (t : Transcript) (s : Sighting) : Transcript × TranscriptEntry :=
  match s.way with
  | .sent => t.onSent s.now s.message
  | .received => t.onReceived s.now s.message

/-- The transcript after a history. -/
def ofHistory (h : List Sighting) : Transcript := h.foldl (fun t s => (t.see s).1) {}

/-- The entry for a response to a request that went a way and is known. -/
def answered (w : Way) (id : MessageId) (m : String) (ms : Nat) (o : Outcome) : TranscriptEntry :=
  match w with
  | .sent =>
    { lead := s!"Received response '{m} - ({id.display})' in ", elapsed := some ms
      rest := s!"ms.\n{outcome o}" }
  | .received =>
    { lead := s!"Sending response '{m} - ({id.display})'. Processing request took "
      elapsed := some ms, rest := s!"ms\n{outcome o}" }

/-- The entry for a response to no known request; one that is sent may tell its own method. -/
def unmatched (w : Way) (id : MessageId) (method : Option String) (o : Outcome) :
    TranscriptEntry :=
  match w with
  | .sent => { lead := s!"Received response '{id.display}' for an unknown request.\n{outcome o}" }
  | .received =>
    let name := method.getD "unknown"
    { lead := s!"Sending response '{name} - ({id.display})'.\n{outcome o}" }

variable {w : Way} {id : MessageId} {table : List Started}

theorem id_of_find? {r : Started} (h : find? table id = some r) : r.id = id := by
  have := List.find?_some h
  simpa using this

theorem find?_forget (table : List Started) (i id : MessageId) :
    find? (forget table i) id = if i == id then none else find? table id := by
  unfold find? forget
  rw [List.find?_filter]
  by_cases hi : i = id
  · subst hi
    simp
  · rw [if_neg (by simpa using hi)]
    congr 1
    funext r
    by_cases hr : r.id = id <;> simp [hr, Ne.symm hi]

theorem find?_remember (table : List Started) (i id : MessageId) (m : String) (now : Nat) :
    find? (remember table i m now) id =
      if i == id then some ⟨i, m, now⟩ else find? table id := by
  have hcons : find? (remember table i m now) id =
      if i == id then some ⟨i, m, now⟩ else find? (forget table i) id := by
    unfold find? remember forget
    cases hi : i == id <;> simp [hi]
  rw [hcons, find?_forget]
  cases i == id <;> rfl

theorem find?_forgetCancelled (table : List Started) (method : String) (params : Payload)
    (id : MessageId) :
    find? (forgetCancelled table method params) id =
      if (Message.notification method params).cancels id then none else find? table id := by
  unfold forgetCancelled Message.cancels
  by_cases hm : method = Message.cancelMethod
  · cases hd : CancelParams.decode params <;> simp [hm, hd, find?_forget]
  · simp [hm]

/-- What a response leaves of the table in which its request is looked up. -/
theorem find?_settled (table : List Started) (i : Option MessageId) (id : MessageId) :
    find? ((i.bind (find? table)).elim table fun r => forget table r.id) id =
      if i == some id then none else find? table id := by
  cases i with
  | none => simp
  | some i =>
    cases hf : find? table i with
    | none =>
      by_cases hi : i = id
      · simp [← hi, hf]
      · simp [hi, hf]
    | some r => simp [hf, id_of_find? hf, find?_forget]

/-- A message writes the one cell that it bears on. -/
theorem find?_see (t : Transcript) (s : Sighting) (w : Way) (id : MessageId) :
    find? ((t.see s).1.table w) id =
      if s.concerns w id then s.opened? else find? (t.table w) id := by
  obtain ⟨v, m, now⟩ := s
  cases m with
  | request i method params =>
    cases v <;> cases w <;>
      simp [see, onSent, onReceived, Transcript.table, Sighting.concerns, Sighting.opened?,
        find?_remember]
  | notification method params =>
    cases v <;> cases w <;>
      simp [see, onSent, onReceived, Transcript.table, Sighting.concerns, Sighting.opened?,
        find?_forgetCancelled]
  | response i method o =>
    have hsent := find?_settled t.sent i id
    have hreceived := find?_settled t.received i id
    cases v <;> cases w <;>
      simp only [see, onSent, onReceived, Sighting.concerns, Sighting.opened?, Way.back]
    all_goals split <;> simp_all [Transcript.table]

@[simp] theorem ofHistory_nil : ofHistory [] = {} := rfl

theorem ofHistory_concat (h : List Sighting) (s : Sighting) :
    ofHistory (h ++ [s]) = ((ofHistory h).see s).1 := by
  simp [ofHistory]

/-- A cell holds what the last message that bears on it has left there. -/
theorem find?_ofHistory (h : List Sighting) (w : Way) (id : MessageId) :
    find? ((ofHistory h).table w) id =
      (h.filter (·.concerns w id)).getLast?.bind Sighting.opened? := by
  induction h using List.reverseRecOn with
  | nil => cases w <;> rfl
  | append_singleton h s ih =>
    rw [ofHistory_concat, find?_see, ih, List.filter_append]
    cases hs : s.concerns w id <;> simp [hs]

theorem find?_ofHistory_eq_some (h : List Sighting) (w : Way) (id : MessageId) (r : Started) :
    find? ((ofHistory h).table w) id = some r ↔
      r.id = id ∧ LastRequest w id r.method r.since h := by
  rw [find?_ofHistory, LastRequest]
  constructor
  · intro hr
    obtain ⟨s, hs, hopen⟩ := Option.bind_eq_some_iff.mp hr
    have hconcerns := (List.mem_filter.mp (List.mem_of_getLast? hs)).2
    obtain ⟨v, m, now⟩ := s
    cases m with
    | request i m params =>
      cases hopen
      have hv : v = w ∧ i = id := by simpa [Sighting.concerns] using hconcerns
      obtain ⟨rfl, rfl⟩ := hv
      exact ⟨rfl, params, hs⟩
    | notification => cases hopen
    | response => cases hopen
  · rintro ⟨rfl, params, hs⟩
    rw [hs]
    rfl

/-- The entry for a message that follows a history. -/
def report (h : List Sighting) (s : Sighting) : TranscriptEntry := ((ofHistory h).see s).2

theorem answered_sent (id : MessageId) (m : String) (ms : Nat) (o : Outcome) :
    answered .sent id m ms o =
      { lead := s!"Received response '{m} - ({id.display})' in ", elapsed := some ms
        rest := s!"ms.\n{outcome o}" } := rfl

theorem answered_received (id : MessageId) (m : String) (ms : Nat) (o : Outcome) :
    answered .received id m ms o =
      { lead := s!"Sending response '{m} - ({id.display})'. Processing request took "
        elapsed := some ms, rest := s!"ms\n{outcome o}" } := rfl

theorem answered_ne_unmatched (w : Way) (id : MessageId) (m : String) (ms : Nat) (o o' : Outcome)
    (method : Option String) : answered w id m ms o ≠ unmatched w id method o' := by
  intro h
  have helapsed := congrArg TranscriptEntry.elapsed h
  cases w <;> cases helapsed

theorem method_of_answered {m m' : String} {ms ms' : Nat} {o o' : Outcome}
    (h : answered w id m ms o = answered w id m' ms' o') : m = m' := by
  have hlead := congrArg TranscriptEntry.lead h
  cases w with
  | sent =>
    rw [answered_sent, answered_sent] at hlead
    simp only [String.append_left_inj, String.append_right_inj] at hlead
    exact hlead
  | received =>
    rw [answered_received, answered_received] at hlead
    simp only [String.append_left_inj, String.append_right_inj] at hlead
    exact hlead

theorem onReceived_response (t : Transcript) (id : MessageId) (method : Option String)
    (o : Outcome) (now : Nat) :
    (t.onReceived now (.response (some id) method o)).2 =
      match find? t.sent id with
      | some r => answered .sent id r.method (now - r.since) o
      | none => unmatched .sent id method o := by
  simp only [onReceived, Option.bind_some]
  cases find? t.sent id <;> rfl

theorem onSent_response (t : Transcript) (id : MessageId) (method : Option String)
    (o : Outcome) (now : Nat) :
    (t.onSent now (.response (some id) method o)).2 =
      match find? t.received id with
      | some r => answered .received id r.method (now - r.since) o
      | none => unmatched .received id method o := by
  simp only [onSent, Option.bind_some]
  cases find? t.received id <;> rfl

theorem see_response (t : Transcript) (w : Way) (id : MessageId) (method : Option String)
    (o : Outcome) (now : Nat) :
    (t.see ⟨w.back, .response (some id) method o, now⟩).2 =
      match find? (t.table w) id with
      | some r => answered w id r.method (now - r.since) o
      | none => unmatched w id method o := by
  cases w with
  | sent => exact onReceived_response t id method o now
  | received => exact onSent_response t id method o now

theorem report_of_lastRequest {h : List Sighting} {m : String} {since : Nat}
    (hl : LastRequest w id m since h) (method : Option String) (o : Outcome) (now : Nat) :
    report h ⟨w.back, .response (some id) method o, now⟩ = answered w id m (now - since) o := by
  have hfind : find? ((ofHistory h).table w) id = some ⟨id, m, since⟩ :=
    (find?_ofHistory_eq_some h w id _).mpr ⟨rfl, hl⟩
  rw [report, see_response, hfind]

theorem report_of_not_lastRequest {h : List Sighting}
    (hl : ∀ m since, ¬ LastRequest w id m since h) (method : Option String) (o : Outcome)
    (now : Nat) :
    report h ⟨w.back, .response (some id) method o, now⟩ = unmatched w id method o := by
  have hfind : find? ((ofHistory h).table w) id = none := by
    refine Option.eq_none_iff_forall_ne_some.mpr fun r hr => ?_
    exact hl _ _ ((find?_ofHistory_eq_some h w id r).mp hr).2
  rw [report, see_response, hfind]

/-- A response is told with the method `m` exactly if the last message before it that bears on its
id in its direction is a request with the method `m`, and as one to no known request if there is no
such request. What else has gone by makes no difference, as no message bears on two cells. -/
theorem told_of_last (h : List Sighting) (w : Way) (id : MessageId) (method : Option String)
    (o : Outcome) (now : Nat) :
    let response : Sighting := ⟨w.back, .response (some id) method o, now⟩
    (∀ m, (∃ ms, report h response = answered w id m ms o) ↔ ∃ since, LastRequest w id m since h) ∧
    (∀ m since, LastRequest w id m since h →
      report h response = answered w id m (now - since) o) ∧
    ((∀ m since, ¬ LastRequest w id m since h) → report h response = unmatched w id method o) ∧
    (∀ h' : List Sighting, h'.filter (·.concerns w id) = h.filter (·.concerns w id) →
      report h' response = report h response) ∧
    ∀ (s : Sighting) (v : Way) (i : MessageId), s.concerns v i = true → s.concerns w id = true →
      v = w ∧ i = id := by
  refine ⟨fun m => ⟨?_, ?_⟩, fun m since hl => report_of_lastRequest hl method o now,
    fun hl => report_of_not_lastRequest hl method o now, fun h' hfilter => ?_,
    fun s v i => Sighting.concerns_unique⟩
  · rintro ⟨ms, htold⟩
    by_cases hl : ∃ m' since, LastRequest w id m' since h
    · obtain ⟨m', since, hl⟩ := hl
      have hm : m = m' :=
        method_of_answered (htold.symm.trans (report_of_lastRequest hl method o now))
      exact ⟨since, hm ▸ hl⟩
    · have hl' : ∀ m since, ¬ LastRequest w id m since h := fun m since hs => hl ⟨m, since, hs⟩
      have hnone := report_of_not_lastRequest hl' method o now
      exact absurd (htold.symm.trans hnone) (answered_ne_unmatched w id m ms o o method)
  · rintro ⟨since, hl⟩
    exact ⟨now - since, report_of_lastRequest hl method o now⟩
  · rw [report, report, see_response, see_response, find?_ofHistory, find?_ofHistory, hfilter]

/-- An id in use again, and a cancellation that goes the other way. -/
example (o : Outcome) :
    let request m now : Sighting := ⟨.sent, .request (.number 1) m .absent, now⟩
    let cancel : Sighting := ⟨.received, .cancellation (.number 1), 3⟩
    report [request "add" 0, request "sub" 2, cancel]
        ⟨.received, .response (some (.number 1)) none o, 7⟩ =
      answered .sent (.number 1) "sub" (7 - 2) o :=
  report_of_lastRequest (w := .sent) ⟨.absent, rfl⟩ none o 7

end Transcript
end RpcPeer
