import RpcPeer.Proofs.Dispatcher.Refinement

/-! The calls of a peer, each told apart from all others. -/
namespace RpcPeer

def Turn.polls (key : Nat) : Turn → Bool
  | act (.call k _) => k == key
  | _ => false

theorem Turn.eq_of_polls {t : Turn} {key : Nat} (h : t.polls key = true) :
    ∃ m, t = act (.call key m) := by
  unfold polls at h
  split at h
  next k m => exact ⟨m, by rw [beq_iff_eq.mp h]⟩
  next => cases h

namespace Peer

/-- What a turn writes if it is a poll of the call with this key. -/
def writtenFor (p : Peer) (key : Nat) (t : Turn) : List Message :=
  if t.polls key then (p.turn t).outgoing.drop p.outgoing.length else []

/-- What the polls of the call with this key write in a run. -/
def answersOf (p : Peer) (key : Nat) : List Turn → List Message
  | [] => []
  | t :: ts => p.writtenFor key t ++ (p.turn t).answersOf key ts

/-- What one peer does with its calls from here on, the other does with its own. -/
def ServesLike (p q : Peer) : Prop :=
  ∀ ts, (p.turns ts).dispatcher = (q.turns ts).dispatcher ∧
    ∀ key, p.answersOf key ts = q.answersOf key ts

/-- The error of a request whose id is that of a call in flight. -/
def refusal (p : Peer) (id : MessageId) (method : String) : ResponseError :=
  if p.codec.catalog.contains method then
    .ofCode .invalidRequest s!"Request id {id.display} is already in use"
  else .ofCode .methodNotFound s!"Unsupported request method: {method}"

end Peer

/-- A request that is accepted as a call in a run. -/
structure Admission (p : Peer) (ts : List Turn) where
  before : List Turn
  id : MessageId
  method : String
  params : Payload
  after : List Turn
  split : ts = before ++ .act (.consume (.request id method params)) :: after
  known : (p.turns before).codec.catalog.contains method = true
  free : ∀ c ∈ (p.turns before).calls, c.id ≠ id

namespace Admission

variable {p : Peer} {ts : List Turn}

def call (s : Admission p ts) : Call :=
  ⟨(p.turns s.before).nextKey, s.id, s.method, s.params, false, none⟩

/-- The peer that has just accepted it. -/
def accepted (s : Admission p ts) : Peer :=
  p.turns (s.before ++ [.act (.consume (.request s.id s.method s.params))])

/-- Where the call comes to in these turns. -/
def stateAfter (s : Admission p ts) (us : List Turn) : CallState :=
  (CallState.inFlight s.call).turns s.accepted.dispatcher.surroundings us

def state (s : Admission p ts) : CallState := s.stateAfter s.after

/-- What becomes of a call is up to it, to what cancels it and to what it depends on. -/
structure Sound (s : Admission p ts) : Prop where
  /-- Its polls write what its end says and nothing else. -/
  responses : s.accepted.answersOf s.call.key s.after = s.state.responses s.call
  /-- As long as it is in flight its token is set if it has been cancelled since it was accepted. -/
  token : ∀ us c, s.stateAfter us = .inFlight c →
    c.identity = s.call.identity ∧ c.cancelled = us.any (·.cancels s.id)
  /-- It ends in a poll of its own, with what that poll finds. -/
  outcome : ∀ e heard, s.state = .ended e heard →
    ∃ us m vs c, s.after = us ++ .act (.call s.call.key m) :: vs ∧ s.stateAfter us = .inFlight c ∧
      c.poll (s.accepted.turns us).dispatcher.surroundings m = .ended e heard
  /-- The other turns have no part in it. -/
  alone : s.stateAfter (s.after.filter (·.concerns s.call.key s.id)) = s.state

end Admission

namespace Peer

variable {p : Peer}

theorem turns_append (p : Peer) (ts us : List Turn) : p.turns (ts ++ us) = (p.turns ts).turns us :=
  List.foldl_append

theorem orderly_turn (h : p.dispatcher.Orderly) (t : Turn) : (p.turn t).dispatcher.Orderly :=
  dispatcher_turn h t ▸ h.turn t

theorem dispatcher_turns (h : p.dispatcher.Orderly) (ts : List Turn) :
    (p.turns ts).dispatcher = p.dispatcher.turns ts := by
  induction ts generalizing p with
  | nil => rfl
  | cons t ts ih =>
    refine (ih (orderly_turn h t)).trans ?_
    rw [dispatcher_turn h t]
    rfl

theorem orderly_turns (h : p.dispatcher.Orderly) (ts : List Turn) :
    (p.turns ts).dispatcher.Orderly := dispatcher_turns h ts ▸ h.turns ts

theorem orderly_of_calls_nil (h : p.calls = []) : p.dispatcher.Orderly := by
  have hc : p.dispatcher.calls = [] := h
  refine ⟨?_, ?_, ?_⟩ <;> rw [hc]
  · exact List.nodup_nil
  · exact List.nodup_nil
  · exact fun c hc => absurd hc List.not_mem_nil

theorem mem_calls_turn (h : p.dispatcher.Orderly) {t : Turn} {c : Call} :
    c ∈ (p.turn t).calls ↔
      (∃ b ∈ p.calls, b.turn p.dispatcher.surroundings t = .inFlight c) ∨
        c ∈ p.dispatcher.admitted t := by
  have hcalls : (p.turn t).calls = (p.dispatcher.turn t).calls :=
    congrArg Dispatcher.calls (dispatcher_turn h t)
  rw [hcalls]
  exact Dispatcher.mem_calls_turn _ t

theorem key_of_mem_turn (h : p.dispatcher.Orderly) {t : Turn} {c : Call}
    (hc : c ∈ (p.turn t).calls) :
    (∃ b ∈ p.calls, b.turn p.dispatcher.surroundings t = .inFlight c ∧ c.key = b.key) ∨
      c.key = p.nextKey := by
  rcases (mem_calls_turn h).mp hc with ⟨b, hb, hbc⟩ | ha
  · exact .inl ⟨b, hb, hbc, congrArg (·.1) (Call.of_turn_eq_inFlight hbc).1⟩
  · rcases p.dispatcher.admitted_cases t with hn | ⟨id, method, params, -, -, -, hd⟩
    · rw [hn] at ha
      exact absurd ha List.not_mem_nil
    · rw [hd] at ha
      exact .inr (congrArg Call.key (List.mem_singleton.mp ha))

theorem nextKey_le_turn (h : p.dispatcher.Orderly) (t : Turn) :
    p.nextKey ≤ (p.turn t).nextKey := by
  have hk : (p.turn t).nextKey = p.nextKey + (p.dispatcher.admitted t).length :=
    congrArg Dispatcher.nextKey (dispatcher_turn h t)
  omega

theorem nextKey_le_turns (h : p.dispatcher.Orderly) (ts : List Turn) :
    p.nextKey ≤ (p.turns ts).nextKey := by
  induction ts generalizing p with
  | nil => exact Nat.le_refl _
  | cons t ts ih => exact Nat.le_trans (nextKey_le_turn h t) (ih (orderly_turn h t))

/-- A poll writes what its call comes to. -/
theorem outgoing_pollCall (h : p.dispatcher.Orderly) {c : Call} (hc : c ∈ p.calls) (m : CallMove) :
    (p.pollCall c.key m).outgoing =
      p.outgoing ++ (c.poll p.dispatcher.surroundings m).responses c := by
  have hs := brings_pollCall h hc m
  cases hp : c.poll p.dispatcher.surroundings m with
  | ended e heard =>
    rw [hp] at hs
    obtain ⟨rfl, hs⟩ := hs
    exact hs.outgoing
  | inFlight d =>
    rw [hp] at hs
    exact hs.outgoing.trans (List.append_nil _).symm

theorem writtenFor_of_notMem {key : Nat} (hno : ∀ c ∈ p.calls, c.key ≠ key) (t : Turn) :
    p.writtenFor key t = [] := by
  unfold writtenFor
  split
  next hp =>
    obtain ⟨m, rfl⟩ := Turn.eq_of_polls hp
    rw [turn, pollCall_of_none hno, List.drop_length]
  next => rfl

theorem writtenFor_of_mem (h : p.dispatcher.Orderly) {c : Call} (hc : c ∈ p.calls) (t : Turn) :
    p.writtenFor c.key t = (c.turn p.dispatcher.surroundings t).responses c := by
  unfold writtenFor
  split
  next hp =>
    obtain ⟨m, rfl⟩ := Turn.eq_of_polls hp
    rw [turn, outgoing_pollCall h hc, List.drop_left, Call.turn_call_self]
  next hp =>
    cases hs : c.turn p.dispatcher.surroundings t with
    | inFlight d => rfl
    | ended e heard =>
      obtain ⟨m, rfl, -⟩ := Call.of_turn_eq_ended hs
      simp [Turn.polls] at hp

/-- A call that is not in flight has nothing more to write. -/
theorem answersOf_of_notMem (h : p.dispatcher.Orderly) {key : Nat} (hlt : key < p.nextKey)
    (hno : ∀ c ∈ p.calls, c.key ≠ key) (ts : List Turn) : p.answersOf key ts = [] := by
  induction ts generalizing p with
  | nil => rfl
  | cons t ts ih =>
    have hnext : ∀ c ∈ (p.turn t).calls, c.key ≠ key := by
      intro c hc
      rcases key_of_mem_turn h hc with ⟨b, hb, -, hk⟩ | hk
      · exact hk ▸ hno b hb
      · omega
    have hle := nextKey_le_turn h t
    rw [answersOf, ih (orderly_turn h t) (by omega) hnext, List.append_nil,
      writtenFor_of_notMem hno]

/-- The polls of a call in flight write what the call comes to. -/
theorem answersOf_of_mem (h : p.dispatcher.Orderly) {c : Call} (hc : c ∈ p.calls)
    (ts : List Turn) :
    p.answersOf c.key ts =
      ((CallState.inFlight c).turns p.dispatcher.surroundings ts).responses c := by
  induction ts generalizing p c with
  | nil => rfl
  | cons t ts ih =>
    rw [answersOf, writtenFor_of_mem h hc, CallState.turns, CallState.turn]
    cases hs : c.turn p.dispatcher.surroundings t with
    | inFlight d =>
      have hi := (Call.of_turn_eq_inFlight hs).1
      have hk : d.key = c.key := congrArg (·.1) hi
      have hd := ih (orderly_turn h t) ((mem_calls_turn h).mpr (.inl ⟨c, hc, hs⟩))
      have he : (p.turn t).dispatcher.surroundings = p.dispatcher.surroundings.turn t :=
        congrArg Dispatcher.surroundings (dispatcher_turn h t)
      rw [hk, he, CallState.responses_congr hi] at hd
      exact hd
    | ended e heard =>
      have hgone : ∀ b ∈ (p.turn t).calls, b.key ≠ c.key := by
        intro b hb hk
        rcases key_of_mem_turn h hb with ⟨a, ha, hab, hba⟩ | hn
        · rw [h.eq_of_key ha hc (hba.symm.trans hk), hs] at hab
          cases hab
        · exact absurd (h.below c hc) (by simp [← hk, hn, dispatcher])
      have hlt : c.key < (p.turn t).nextKey :=
        Nat.lt_of_lt_of_le (h.below c hc) (nextKey_le_turn h t)
      rw [answersOf_of_notMem (orderly_turn h t) hlt hgone, List.append_nil,
        CallState.turns_ended]

/-- What is written for a call is decided by the dispatcher alone. -/
theorem answersOf_congr {q : Peer} (h : p.dispatcher.Orderly) (hq : q.dispatcher = p.dispatcher)
    (key : Nat) (ts : List Turn) : q.answersOf key ts = p.answersOf key ts := by
  induction ts generalizing p q with
  | nil => rfl
  | cons t ts ih =>
    have hqo : q.dispatcher.Orderly := hq ▸ h
    have hcalls : q.calls = p.calls := congrArg Dispatcher.calls hq
    have hnext : (q.turn t).dispatcher = (p.turn t).dispatcher := by
      rw [dispatcher_turn h, dispatcher_turn hqo, hq]
    have hwritten : q.writtenFor key t = p.writtenFor key t := by
      by_cases hex : ∃ c ∈ p.calls, c.key = key
      · obtain ⟨c, hc, rfl⟩ := hex
        rw [writtenFor_of_mem h hc, writtenFor_of_mem hqo (hcalls ▸ hc), hq]
      · have hno : ∀ c ∈ p.calls, c.key ≠ key := fun c hc hk => hex ⟨c, hc, hk⟩
        rw [writtenFor_of_notMem hno, writtenFor_of_notMem (hcalls ▸ hno)]
    rw [answersOf, answersOf, ih (orderly_turn h t) hnext, hwritten]

theorem servesLike_of_dispatcher {q : Peer} (h : p.dispatcher.Orderly)
    (hq : q.dispatcher = p.dispatcher) : q.ServesLike p := by
  refine fun ts => ⟨?_, fun key => answersOf_congr h hq key ts⟩
  rw [dispatcher_turns h, dispatcher_turns (hq ▸ h), hq]

/-- Once a call in flight is cancelled nothing is written for it any more. -/
theorem answersOf_of_cancels (h : p.dispatcher.Orderly) {m : Message} {c : Call} (hc : c ∈ p.calls)
    (hm : m.cancels c.id = true) (ts : List Turn) :
    p.answersOf c.key (.act (.consume m) :: ts) = [] := by
  rw [answersOf_of_mem h hc]
  refine CallState.Silenced.responses ?_ c
  refine CallState.Silenced.turns ?_ _ ts
  rw [CallState.turn, Call.turn, if_pos hm]
  exact rfl

/-- A cancellation that is malformed or names no call in flight only shows in the log. -/
theorem consume_of_idle_cancel {params : Payload}
    (h : ∀ c ∈ p.calls, CancelParams.decode params ≠ .ok c.id) :
    ∃ e, p.consume (.notification Message.cancelMethod params) = p.write e := by
  cases hd : CancelParams.decode params with
  | error e => exact ⟨_, handleNotification_of_malformed hd⟩
  | ok i =>
    have hno : ∀ c ∈ p.calls, c.id ≠ i := fun c hc hi => h c hc (hi ▸ hd)
    exact ⟨_, (handleNotification_of_cancel hd).trans (cancelServed_of_notMem hno)⟩

/-- A request under the id of a call in flight is refused, and nothing else changes. -/
theorem consume_of_used {c : Call} (hc : c ∈ p.calls) (method : String) (params : Payload) :
    (p.consume (.request c.id method params)).tables = p.tables.post
        (.response (some c.id) (some method) (.error (p.refusal c.id method))) ∧
      (p.consume (.request c.id method params)).dispatcher = p.dispatcher := by
  rw [consume]
  cases hk : p.codec.catalog.contains method with
  | false =>
    rw [handleRequest_of_unknown hk, refusal, if_neg (by simp [hk])]
    simp
  | true =>
    rw [handleRequest_of_used hk hc, refusal, if_pos hk]
    simp

end Peer

namespace Admission

variable {p : Peer} {ts : List Turn}

theorem mem_admitted (s : Admission p ts) : s.call ∈ (p.turns s.before).dispatcher.admitted
    (.act (.consume (.request s.id s.method s.params))) := by
  rw [Dispatcher.admitted_of_free s.known s.free]
  exact List.mem_singleton_self _

theorem accepted_eq (s : Admission p ts) : s.accepted =
    (p.turns s.before).turn (.act (.consume (.request s.id s.method s.params))) :=
  Peer.turns_append ..

theorem mem_accepted (h : p.dispatcher.Orderly) (s : Admission p ts) :
    s.call ∈ s.accepted.calls := by
  rw [accepted_eq]
  exact (Peer.mem_calls_turn (Peer.orderly_turns h _)).mpr (.inr s.mem_admitted)

theorem orderly_accepted (h : p.dispatcher.Orderly) (s : Admission p ts) :
    s.accepted.dispatcher.Orderly := Peer.orderly_turns h _

theorem sound (h : p.dispatcher.Orderly) (s : Admission p ts) : s.Sound where
  responses := Peer.answersOf_of_mem (s.orderly_accepted h) (s.mem_accepted h) s.after
  token := by
    intro us c hc
    obtain ⟨hi, hx⟩ := CallState.of_turns_eq_inFlight hc
    exact ⟨hi, hx.trans (Bool.false_or _)⟩
  outcome := by
    intro e heard he
    obtain ⟨us, m, vs, hus, c, hc, hm⟩ := CallState.of_turns_eq_ended he
    refine ⟨us, m, vs, c, hus, hc, ?_⟩
    rw [Peer.dispatcher_turns (s.orderly_accepted h), Dispatcher.surroundings_turns]
    exact hm
  alone := CallState.turns_filter ..

/-- The key of a call is below those of all calls that are admitted later. -/
theorem key_lt (h : p.dispatcher.Orderly) {s u : Admission p ts}
    (hlt : s.before.length < u.before.length) : s.call.key < u.call.key := by
  obtain ⟨us, hus⟩ : s.before ++ [.act (.consume (.request s.id s.method s.params))] <+:
      u.before := by
    have hs : s.before ++ [.act (.consume (.request s.id s.method s.params))] <+: ts :=
      ⟨s.after, (List.append_assoc ..).trans s.split.symm⟩
    exact List.prefix_of_prefix_length_le hs ⟨_, u.split.symm⟩ (by simpa using hlt)
  have hlater : p.turns u.before = s.accepted.turns us := by
    rw [← hus, Peer.turns_append]
    rfl
  have hle : s.accepted.nextKey ≤ (p.turns u.before).nextKey :=
    hlater ▸ Peer.nextKey_le_turns (s.orderly_accepted h) us
  exact Nat.lt_of_lt_of_le ((s.orderly_accepted h).below _ (s.mem_accepted h)) hle

theorem before_eq (h : p.dispatcher.Orderly) {s u : Admission p ts}
    (hk : s.call.key = u.call.key) : s.before = u.before := by
  have hlen : s.before.length = u.before.length := by
    rcases Nat.lt_trichotomy s.before.length u.before.length with hlt | heq | hgt
    · exact absurd hk (Nat.ne_of_lt (key_lt h hlt))
    · exact heq
    · exact absurd hk (Nat.ne_of_gt (key_lt h hgt))
  exact (List.append_inj (s.split.symm.trans u.split) hlen).1

end Admission

namespace Peer

variable {p : Peer}

theorem mem_calls_iff (hp : p.calls = []) (ts : List Turn) (c : Call) :
    c ∈ (p.turns ts).calls ↔ ∃ s : Admission p ts, s.state = .inFlight c := by
  have h := orderly_of_calls_nil hp
  have hcalls : (p.turns ts).calls = (p.dispatcher.turns ts).calls :=
    congrArg Dispatcher.calls (dispatcher_turns h ts)
  have hnone : ∀ b, b ∉ p.dispatcher.calls := fun b hb => by
    rw [show p.dispatcher.calls = [] from hp] at hb
    exact absurd hb List.not_mem_nil
  rw [hcalls, Dispatcher.mem_calls_turns]
  constructor
  · rintro (⟨b, hb, -⟩ | ⟨us, t, vs, rfl, b, hb, hbc⟩)
    · exact absurd hb (hnone b)
    · rw [← dispatcher_turns h] at hb hbc
      rcases (p.turns us).dispatcher.admitted_cases t with
        ha | ⟨id, method, params, rfl, hk, hfree, ha⟩
      · rw [ha] at hb
        exact absurd hb List.not_mem_nil
      · rw [ha] at hb
        obtain rfl := List.mem_singleton.mp hb
        exact ⟨⟨us, id, method, params, vs, rfl, hk, hfree⟩, hbc⟩
  · rintro ⟨s, hs⟩
    refine .inr ⟨s.before, _, s.after, s.split, s.call, ?_, ?_⟩
    · rw [← dispatcher_turns h]
      exact s.mem_admitted
    · rw [← dispatcher_turns h]
      exact hs

end Peer

/-- Through every run of a peer the table of calls holds the calls that were admitted and have not
ended, each with its own id. What becomes of a call is up to it and to what cancels it: a
cancellation that finds it in flight silences it, one that finds no call changes nothing, and a
request under an id in flight is refused and changes nothing. -/
theorem calls_served_apart (p : Peer) (hp : p.calls = []) (ts : List Turn) :
    let q := p.turns ts
    (∀ c, c ∈ q.calls ↔ ∃ s : Admission p ts, s.state = .inFlight c) ∧
      (q.calls.map (·.id)).Nodup ∧
      (∀ s u : Admission p ts, s.call.key = u.call.key → s.before = u.before) ∧
      (∀ s : Admission p ts, s.Sound) ∧
      (∀ m, ∀ c ∈ q.calls, m.cancels c.id = true →
        ∀ us, q.answersOf c.key (.act (.consume m) :: us) = []) ∧
      (∀ params, (∀ c ∈ q.calls, CancelParams.decode params ≠ .ok c.id) →
        let r := q.consume (.notification Message.cancelMethod params)
        (∃ e, r = q.write e) ∧ r.ServesLike q) ∧
      ∀ c ∈ q.calls, ∀ method params,
        let r := q.consume (.request c.id method params)
        r.tables = q.tables.post
            (.response (some c.id) (some method) (.error (q.refusal c.id method))) ∧
          r.ServesLike q := by
  intro q
  have h := Peer.orderly_of_calls_nil hp
  have hq : q.dispatcher.Orderly := Peer.orderly_turns h ts
  refine ⟨Peer.mem_calls_iff hp ts, hq.ids, fun s u => Admission.before_eq h,
    Admission.sound h, fun m c hc hm us => Peer.answersOf_of_cancels hq hc hm us, ?_, ?_⟩
  · intro params hno r
    obtain ⟨e, he⟩ := Peer.consume_of_idle_cancel hno
    have hd : r.dispatcher = (q.write e).dispatcher := congrArg Peer.dispatcher he
    exact ⟨⟨e, he⟩, Peer.servesLike_of_dispatcher hq hd⟩
  · intro c hc method params r
    obtain ⟨ht, hd⟩ := Peer.consume_of_used hc method params
    exact ⟨ht, Peer.servesLike_of_dispatcher hq hd⟩

/-- Two calls in flight under the ids `1` and `"1"`, the first of which is cancelled. -/
theorem calls_served_apart_two_kinds :
    let p : Peer :=
      { codec := ⟨.base, ⟨[⟨"wait", .request, .unit, some .unit⟩]⟩, 1⟩, service := .empty "" }
    let ts : List Turn :=
      [.act (.consume (.request (.number 1) "wait" .absent)),
        .act (.consume (.request (.text "1") "wait" .absent))]
    let cancel : Turn := .act (.consume (.cancellation (.number 1)))
    let settle (key : Nat) : Turn := .act (.call key (.settle (.value .absent)))
    p.calls = [] ∧ (∀ us, (p.turns ts).answersOf 0 (cancel :: us) = []) ∧
      (p.turns ts).answersOf 1 [cancel, settle 0, settle 1] =
        [.response (some (.text "1")) (some "wait") (.result .absent)] := by
  intro p ts cancel settle
  have hcalls : (p.turns ts).calls =
      [⟨0, .number 1, "wait", .absent, false, none⟩,
        ⟨1, .text "1", "wait", .absent, false, none⟩] := rfl
  obtain ⟨-, -, -, -, hsilent, -⟩ := calls_served_apart p rfl ts
  refine ⟨rfl, fun us => ?_, rfl⟩
  exact hsilent (.cancellation (.number 1)) ⟨0, .number 1, "wait", .absent, false, none⟩
    (hcalls ▸ List.mem_cons_self) (by simp) us

/-- A request under an id in flight is not always refused for its id. -/
theorem used_id_method_not_found :
    ¬ ∀ (p : Peer) (ts : List Turn), p.calls = [] → (p.turns ts).listening = true →
      ∀ c ∈ (p.turns ts).calls, ∀ method params, ∃ text,
        ((p.turns ts).consume (.request c.id method params)).outgoing = (p.turns ts).outgoing ++
          [.response (some c.id) (some method) (.error (.ofCode .invalidRequest text))] := by
  intro h
  obtain ⟨text, ht⟩ := h
    { codec := ⟨.base, ⟨[⟨"wait", .request, .unit, some .unit⟩]⟩, 1⟩, service := .empty "" }
    [.act (.consume (.request (.number 7) "wait" .absent))] rfl rfl
    ⟨0, .number 7, "wait", .absent, false, none⟩ List.mem_cons_self "shout" .absent
  have hsent : [Message.response (some (.number 7)) (some "shout")
      (.error (.ofCode .methodNotFound "Unsupported request method: shout"))] =
        [.response (some (.number 7)) (some "shout") (.error (.ofCode .invalidRequest text))] := ht
  injection hsent with hm
  injection hm with _ _ ho
  injection ho with he
  have hcode : ErrorCode.methodNotFound.code = ErrorCode.invalidRequest.code :=
    congrArg ResponseError.code he
  exact absurd hcode (by decide)

end RpcPeer
