import RpcPeer.Proofs.Peer.Acts

/-! The half of a peer that serves requests, as a machine of its own. -/
namespace RpcPeer

/-- What a call depends on besides itself. -/
structure Surroundings where
  service : Service
  policy : FaultPolicy
  /-- The gates that are open. -/
  opened : List String
  listening : Bool

structure Dispatcher where
  surroundings : Surroundings
  catalog : Catalog
  calls : List Call
  nextKey : Nat

/-- What can happen to a peer that serves. -/
inductive Turn
  /-- A call that goes on is polled: if it is cancelled it ends, whatever its handler would do. -/
  | act (a : Act)
  /-- A message comes in that could not be decoded. -/
  | reject (i : Issue)
  | openGate (gate : String)
  | cancelCalls
  | release

namespace Turn

/-- Does a turn cancel a call with this id if there is one? -/
def cancels (id : MessageId) : Turn → Bool
  | act (.consume m) => m.cancels id
  | cancelCalls => true
  | _ => false

/-- Is a turn about the call with this key and this id, or about what every call depends on? -/
def concerns (key : Nat) (id : MessageId) : Turn → Bool
  | act (.call k _) => k == key
  | act (.consume m) => m.cancels id
  | act (.listen _) | openGate _ | cancelCalls => true
  | _ => false

end Turn

/-- Where a call stands. A response is heard if somebody takes messages when the call ends. -/
inductive CallState
  | inFlight (c : Call)
  | ended (e : Ending) (heard : Bool)

namespace CallState

def inFlight? : CallState → Option Call
  | inFlight c => some c
  | ended .. => none

/-- What a call with this identity has written when it stands here. -/
def responses (c : Call) : CallState → List Message
  | inFlight _ => []
  | ended e heard => if heard then e.responses c else []

theorem responses_congr {b c : Call} (h : b.identity = c.identity) (s : CallState) :
    s.responses b = s.responses c := by
  have hid : b.id = c.id := congrArg (·.2.1) h
  have hm : b.method = c.method := congrArg (·.2.2) h
  cases s with
  | inFlight => rfl
  | ended e heard => cases e <;> simp [responses, Ending.responses, hid, hm]

end CallState

def Surroundings.turn (e : Surroundings) : Turn → Surroundings
  | .act (.listen b) => { e with listening := b }
  | .openGate gate => { e with opened := gate :: e.opened }
  | _ => e

namespace Call

def poll (e : Surroundings) (c : Call) (m : CallMove) : CallState :=
  if c.cancelled then .ended (.silent .cancelled) e.listening
  else
    match m with
    | .settle v => .ended (c.ending e.policy v) e.listening
    | .run =>
      match (c.activity.getD (e.service.callRequest c.method c.params).2).resume false e.opened with
      | .done v => .ended (c.ending e.policy v) e.listening
      | waiting => .inFlight { c with activity := some waiting }

theorem poll_of_cancelled (e : Surroundings) {c : Call} (h : c.cancelled = true) (m : CallMove) :
    c.poll e m = .ended (.silent .cancelled) e.listening := by
  simp [poll, h]

theorem poll_run (e : Surroundings) {c : Call} (h : c.cancelled = false) :
    c.poll e .run =
      match (c.activity.getD (e.service.callRequest c.method c.params).2).resume false e.opened with
      | .done v => .ended (c.ending e.policy v) e.listening
      | waiting => .inFlight { c with activity := some waiting } := by
  simp only [poll, h, Bool.false_eq_true, if_false]

theorem poll_settle (e : Surroundings) {c : Call} (h : c.cancelled = false) (v : Verdict Payload) :
    c.poll e (.settle v) = .ended (c.ending e.policy v) e.listening := by
  simp [poll, h]

def cancel (c : Call) : Call := { c with cancelled := true }

/-- What a turn does to a call. -/
def turn (e : Surroundings) (c : Call) : Turn → CallState
  | .act (.call key m) => if c.key = key then c.poll e m else .inFlight c
  | .act (.consume m) => .inFlight (if m.cancels c.id then c.cancel else c)
  | .cancelCalls => .inFlight c.cancel
  | _ => .inFlight c

theorem turn_call_self (e : Surroundings) (c : Call) (m : CallMove) :
    c.turn e (.act (.call c.key m)) = c.poll e m := if_pos rfl

theorem turn_call_of_ne (e : Surroundings) {c : Call} {key : Nat} (h : c.key ≠ key) (m : CallMove) :
    c.turn e (.act (.call key m)) = .inFlight c := if_neg h

end Call

namespace Dispatcher

def newCall (d : Dispatcher) (id : MessageId) (method : String) (params : Payload) : Call :=
  ⟨d.nextKey, id, method, params, false, none⟩

/-- The call that a turn admits. -/
def admitted (d : Dispatcher) : Turn → List Call
  | .act (.consume (.request id method params)) =>
    if d.catalog.contains method && !d.calls.any (·.id == id) then
      [d.newCall id method params]
    else []
  | _ => []

def turn (d : Dispatcher) (t : Turn) : Dispatcher :=
  { d with
    surroundings := d.surroundings.turn t
    calls := d.calls.filterMap (fun c => (c.turn d.surroundings t).inFlight?) ++ d.admitted t
    nextKey := d.nextKey + (d.admitted t).length }

/-- The calls have their own ids and keys, and the next key is new. -/
structure Orderly (d : Dispatcher) : Prop where
  ids : (d.calls.map (·.id)).Nodup
  keys : (d.calls.map (·.key)).Nodup
  below : ∀ c ∈ d.calls, c.key < d.nextKey

variable {d : Dispatcher} {t : Turn}

theorem Orderly.eq_of_key (h : d.Orderly) {b c : Call} (hb : b ∈ d.calls) (hc : c ∈ d.calls)
    (hk : b.key = c.key) : b = c :=
  List.inj_on_of_nodup_map h.keys hb hc hk

theorem Orderly.eq_of_id (h : d.Orderly) {b c : Call} (hb : b ∈ d.calls) (hc : c ∈ d.calls)
    (hi : b.id = c.id) : b = c :=
  List.inj_on_of_nodup_map h.ids hb hc hi

def mapCalls (d : Dispatcher) (f : Call → Call) : Dispatcher := { d with calls := d.calls.map f }

theorem mapCalls_congr {f g : Call → Call} (h : ∀ c ∈ d.calls, f c = g c) :
    d.mapCalls f = d.mapCalls g := by
  rw [mapCalls, List.map_congr_left h, mapCalls]

theorem mapCalls_mapCalls (d : Dispatcher) (f g : Call → Call) :
    (d.mapCalls f).mapCalls g = d.mapCalls fun c => g (f c) := by
  simp [mapCalls, Function.comp_def]

theorem mapCalls_eq_self {f : Call → Call} (h : ∀ c ∈ d.calls, f c = c) : d.mapCalls f = d := by
  rw [mapCalls_congr h, mapCalls, List.map_id']

/-- A turn after which every call stands where a function says. -/
theorem turn_of_map {f : Call → Call}
    (hc : ∀ c ∈ d.calls, c.turn d.surroundings t = .inFlight (f c)) (ha : d.admitted t = []) :
    d.turn t = { d.mapCalls f with surroundings := d.surroundings.turn t } := by
  have hcalls : d.calls.filterMap (fun c => (c.turn d.surroundings t).inFlight?) =
      d.calls.map f := by
    rw [← List.filterMap_eq_map]
    exact List.filterMap_congr fun c hm => by rw [hc c hm]; rfl
  rw [turn, hcalls, ha, List.append_nil]
  rfl

/-- A turn that says nothing to the calls. -/
theorem turn_of_quiet (hc : ∀ c ∈ d.calls, c.turn d.surroundings t = .inFlight c)
    (ha : d.admitted t = []) :
    d.turn t = { d with surroundings := d.surroundings.turn t } := by
  rw [turn_of_map (f := fun c => c) hc ha, mapCalls_eq_self fun _ _ => rfl]

end Dispatcher

namespace Call

variable {e : Surroundings} {c d : Call} {t : Turn}

theorem of_poll_eq_inFlight {m : CallMove} (h : c.poll e m = .inFlight d) :
    c.cancelled = false ∧ ∃ a, d = { c with activity := some a } := by
  unfold poll at h
  split at h
  next => cases h
  next hc =>
    refine ⟨by simpa using hc, ?_⟩
    split at h
    next => cases h
    next =>
      split at h
      next => cases h
      next => exact ⟨_, (CallState.inFlight.inj h).symm⟩

/-- As long as a call is in flight it keeps its identity, and what cancels it sets its token. -/
theorem of_turn_eq_inFlight (h : c.turn e t = .inFlight d) :
    d.identity = c.identity ∧ d.cancelled = (c.cancelled || t.cancels c.id) := by
  have hsame : c.turn e t = .inFlight c → t.cancels c.id = false →
      d.identity = c.identity ∧ d.cancelled = (c.cancelled || t.cancels c.id) := by
    intro hc ht
    obtain rfl := CallState.inFlight.inj (hc.symm.trans h)
    simp [ht]
  cases t with
  | act a =>
    cases a with
    | call key m =>
      by_cases hk : c.key = key
      · subst hk
        obtain ⟨-, a, rfl⟩ := of_poll_eq_inFlight (turn_call_self e c m ▸ h)
        exact ⟨rfl, (Bool.or_false _).symm⟩
      · exact hsame (turn_call_of_ne e hk m) rfl
    | consume m =>
      obtain rfl := CallState.inFlight.inj h
      cases hm : m.cancels c.id <;> simp [Turn.cancels, hm, cancel, identity]
    | request | cancel | abandon | listen | encode => exact hsame rfl rfl
  | cancelCalls =>
    obtain rfl := CallState.inFlight.inj h
    simp [Turn.cancels, cancel, identity]
  | reject | openGate | release => exact hsame rfl rfl

/-- Only a poll of its own ends a call. -/
theorem of_turn_eq_ended {s : Ending} {heard : Bool} (h : c.turn e t = .ended s heard) :
    ∃ m, t = .act (.call c.key m) ∧ c.poll e m = .ended s heard := by
  cases t with
  | act a =>
    cases a with
    | call key m =>
      by_cases hk : c.key = key
      · subst hk
        exact ⟨m, rfl, turn_call_self e c m ▸ h⟩
      · rw [turn_call_of_ne e hk] at h
        cases h
    | request | cancel | abandon | listen | encode | consume => cases h
  | cancelCalls | reject | openGate | release => cases h

theorem turn_of_not_concerns (h : t.concerns c.key c.id = false) :
    c.turn e t = .inFlight c ∧ e.turn t = e := by
  cases t with
  | act a =>
    cases a with
    | call key m =>
      have hk : c.key ≠ key := fun hk => by simp [Turn.concerns, hk] at h
      exact ⟨turn_call_of_ne e hk m, rfl⟩
    | consume m =>
      have hm : m.cancels c.id = false := h
      exact ⟨by simp [turn, hm], rfl⟩
    | listen => cases h
    | request | cancel | abandon | encode => exact ⟨rfl, rfl⟩
  | cancelCalls | openGate => cases h
  | reject | release => exact ⟨rfl, rfl⟩

end Call

def Surroundings.turns (e : Surroundings) (ts : List Turn) : Surroundings := ts.foldl turn e

namespace CallState

def turn (e : Surroundings) (t : Turn) : CallState → CallState
  | inFlight c => c.turn e t
  | s => s

/-- Where a call comes to in a run. -/
def turns (s : CallState) (e : Surroundings) : List Turn → CallState
  | [] => s
  | t :: ts => (s.turn e t).turns (e.turn t) ts

variable {s : CallState} {e : Surroundings} {b c : Call} {ts : List Turn}

@[simp] theorem turns_ended (e : Surroundings) (x : Ending) (heard : Bool) (ts : List Turn) :
    (ended x heard).turns e ts = ended x heard := by
  induction ts generalizing e with
  | nil => rfl
  | cons t ts ih => exact ih _

theorem of_turns_eq_inFlight (h : (inFlight b).turns e ts = inFlight c) :
    c.identity = b.identity ∧ c.cancelled = (b.cancelled || ts.any (·.cancels b.id)) := by
  induction ts generalizing b e with
  | nil =>
    obtain rfl := inFlight.inj h
    simp
  | cons t ts ih =>
    cases ht : b.turn e t with
    | ended x heard =>
      rw [turns, turn, ht, turns_ended] at h
      cases h
    | inFlight d =>
      rw [turns, turn, ht] at h
      obtain ⟨hi, hc⟩ := Call.of_turn_eq_inFlight ht
      obtain ⟨hi', hc'⟩ := ih h
      have hid : d.id = b.id := congrArg (·.2.1) hi
      rw [hid, hc] at hc'
      exact ⟨hi'.trans hi, by simp [hc', Bool.or_assoc]⟩

/-- A call ends in a poll of its own, with what that poll finds. -/
theorem of_turns_eq_ended {x : Ending} {heard : Bool}
    (h : (inFlight b).turns e ts = ended x heard) :
    ∃ us m vs, ts = us ++ .act (.call b.key m) :: vs ∧
      ∃ c, (inFlight b).turns e us = inFlight c ∧ c.poll (e.turns us) m = ended x heard := by
  induction ts generalizing b e with
  | nil => cases h
  | cons t ts ih =>
    cases ht : b.turn e t with
    | ended y g =>
      rw [turns, turn, ht, turns_ended] at h
      obtain ⟨m, rfl, hm⟩ := Call.of_turn_eq_ended ht
      exact ⟨[], m, ts, rfl, b, rfl, hm.trans h⟩
    | inFlight d =>
      rw [turns, turn, ht] at h
      have hk : d.key = b.key := congrArg (·.1) (Call.of_turn_eq_inFlight ht).1
      obtain ⟨us, m, vs, rfl, c, hc, hm⟩ := ih h
      refine ⟨t :: us, m, vs, by rw [hk]; rfl, c, ?_, hm⟩
      rw [turns, turn, ht, hc]

/-- Nothing comes of a call any more. -/
def Silenced : CallState → Prop
  | inFlight c => c.cancelled = true
  | ended x _ => x = .silent .cancelled

theorem Silenced.turns (h : s.Silenced) (e : Surroundings) (ts : List Turn) :
    (s.turns e ts).Silenced := by
  induction ts generalizing s e with
  | nil => exact h
  | cons t ts ih =>
    refine ih ?_ (e.turn t)
    cases s with
    | ended x heard => exact h
    | inFlight c =>
      have hc : c.cancelled = true := h
      cases ht : c.turn e t with
      | inFlight d =>
        rw [turn, ht]
        exact (Call.of_turn_eq_inFlight ht).2.trans (by simp [hc])
      | ended x heard =>
        obtain ⟨m, -, hm⟩ := Call.of_turn_eq_ended ht
        rw [Call.poll_of_cancelled e hc] at hm
        rw [turn, ht]
        exact (CallState.ended.inj hm).1.symm

theorem Silenced.responses (h : s.Silenced) (c : Call) : s.responses c = [] := by
  cases s with
  | inFlight => rfl
  | ended x heard =>
    obtain rfl : x = .silent .cancelled := h
    cases heard <;> rfl

/-- What does not concern a call has no part in where it comes to. -/
theorem turns_filter (b : Call) (e : Surroundings) (ts : List Turn) :
    (inFlight b).turns e (ts.filter (·.concerns b.key b.id)) = (inFlight b).turns e ts := by
  induction ts generalizing b e with
  | nil => rfl
  | cons t ts ih =>
    cases hc : t.concerns b.key b.id with
    | false =>
      obtain ⟨ht, he⟩ := Call.turn_of_not_concerns (e := e) hc
      rw [List.filter_cons_of_neg (by simp [hc]), ih, turns, turn, ht, he]
    | true =>
      rw [List.filter_cons_of_pos hc, turns, turns, turn]
      cases ht : b.turn e t with
      | ended x heard => rw [turns_ended, turns_ended]
      | inFlight d =>
        have hi := (Call.of_turn_eq_inFlight ht).1
        have hk : d.key = b.key := congrArg (·.1) hi
        have hid : d.id = b.id := congrArg (·.2.1) hi
        rw [← hk, ← hid, ih]

end CallState

namespace Dispatcher

def turns (d : Dispatcher) (ts : List Turn) : Dispatcher := ts.foldl turn d

variable {d : Dispatcher}

@[simp] theorem surroundings_turns (d : Dispatcher) (ts : List Turn) :
    (d.turns ts).surroundings = d.surroundings.turns ts := by
  induction ts generalizing d with
  | nil => rfl
  | cons t ts ih => exact ih (d.turn t)

theorem mem_calls_turn {c : Call} (d : Dispatcher) (t : Turn) :
    c ∈ (d.turn t).calls ↔
      (∃ b ∈ d.calls, b.turn d.surroundings t = .inFlight c) ∨ c ∈ d.admitted t := by
  have hf : ∀ s : CallState, s.inFlight? = some c ↔ s = .inFlight c := by
    intro s
    cases s <;> simp [CallState.inFlight?]
  rw [turn, List.mem_append, List.mem_filterMap]
  simp only [hf]

/-- The calls in flight are those that were there at first or were admitted, and that have not come
to an end. -/
theorem mem_calls_turns {c : Call} (d : Dispatcher) (ts : List Turn) :
    c ∈ (d.turns ts).calls ↔
      (∃ b ∈ d.calls, (CallState.inFlight b).turns d.surroundings ts = .inFlight c) ∨
      ∃ us t vs, ts = us ++ t :: vs ∧ ∃ b ∈ (d.turns us).admitted t,
        (CallState.inFlight b).turns (d.turns (us ++ [t])).surroundings vs = .inFlight c := by
  induction ts generalizing d with
  | nil => simp [turns, CallState.turns]
  | cons t ts ih =>
    have hcons : ∀ (us : List Turn), (d.turn t).turns us = d.turns (t :: us) := fun _ => rfl
    rw [← hcons, ih]
    constructor
    · rintro (⟨b, hb, hbc⟩ | ⟨us, u, vs, rfl, b, hb, hbc⟩)
      · rcases (mem_calls_turn d t).mp hb with ⟨a, ha, hab⟩ | ha
        · exact .inl ⟨a, ha, by rw [CallState.turns, CallState.turn, hab]; exact hbc⟩
        · exact .inr ⟨[], t, ts, rfl, b, ha, hbc⟩
      · exact .inr ⟨t :: us, u, vs, rfl, b, hb, hbc⟩
    · rintro (⟨b, hb, hbc⟩ | ⟨us, u, vs, he, b, hb, hbc⟩)
      · cases hbt : b.turn d.surroundings t with
        | inFlight a =>
          rw [CallState.turns, CallState.turn, hbt] at hbc
          exact .inl ⟨a, (mem_calls_turn d t).mpr (.inl ⟨b, hb, hbt⟩), hbc⟩
        | ended x heard =>
          rw [CallState.turns, CallState.turn, hbt, CallState.turns_ended] at hbc
          cases hbc
      · cases us with
        | nil =>
          obtain ⟨rfl, rfl⟩ := List.cons.inj he
          exact .inl ⟨b, (mem_calls_turn d t).mpr (.inr hb), hbc⟩
        | cons v us =>
          obtain ⟨rfl, rfl⟩ := List.cons.inj he
          exact .inr ⟨us, u, vs, rfl, b, hb, hbc⟩

theorem admitted_of_free {id : MessageId} {method : String}
    (hk : d.catalog.contains method = true) (hfree : ∀ b ∈ d.calls, b.id ≠ id) (params : Payload) :
    d.admitted (.act (.consume (.request id method params))) = [d.newCall id method params] :=
  if_pos (by simpa [hk] using hfree)

/-- A turn admits one call at most: a request for a known method under an id that no call has. -/
theorem admitted_cases (d : Dispatcher) (t : Turn) :
    d.admitted t = [] ∨
      ∃ id method params, t = .act (.consume (.request id method params)) ∧
        d.catalog.contains method = true ∧ (∀ b ∈ d.calls, b.id ≠ id) ∧
        d.admitted t = [d.newCall id method params] := by
  unfold admitted
  split
  next id method params =>
    split
    next hf =>
      simp only [Bool.and_eq_true, Bool.not_eq_true', List.any_eq_false, beq_iff_eq] at hf
      exact .inr ⟨id, method, params, rfl, hf.1, hf.2, rfl⟩
    next => exact .inl rfl
  next => exact .inl rfl

/-- What the calls that go on in a turn keep is in the list of what they had. -/
theorem sublist_goesOn {β : Type} {f : Call → β} (hf : ∀ b c : Call, b.identity = c.identity →
    f b = f c) (e : Surroundings) (t : Turn) (cs : List Call) :
    ((cs.filterMap fun c => (c.turn e t).inFlight?).map f).Sublist (cs.map f) := by
  induction cs with
  | nil => exact .slnil
  | cons c cs ih =>
    cases ht : c.turn e t with
    | inFlight d =>
      rw [List.filterMap_cons_some (b := d) (by simp [ht, CallState.inFlight?]), List.map_cons,
        List.map_cons, hf d c (Call.of_turn_eq_inFlight ht).1]
      exact ih.cons_cons _
    | ended x heard =>
      rw [List.filterMap_cons_none (by simp [ht, CallState.inFlight?])]
      exact ih.cons _

theorem Orderly.turn (h : d.Orderly) (t : Turn) : (d.turn t).Orderly := by
  have hids := sublist_goesOn (f := (·.id)) (fun _ _ hi => congrArg (·.2.1) hi)
    d.surroundings t d.calls
  have hkeys := sublist_goesOn (f := (·.key)) (fun _ _ hi => congrArg (·.1) hi)
    d.surroundings t d.calls
  have hbelow : ∀ c ∈ d.calls.filterMap (fun c => (c.turn d.surroundings t).inFlight?),
      c.key < d.nextKey := by
    intro c hc
    obtain ⟨b, hb, hk⟩ := List.mem_map.mp (hkeys.subset (List.mem_map_of_mem hc))
    exact hk ▸ h.below b hb
  rcases d.admitted_cases t with ha | ⟨id, method, params, -, -, hfree, ha⟩
  · refine ⟨?_, ?_, ?_⟩ <;> rw [Dispatcher.turn, ha, List.append_nil]
    · exact h.ids.sublist hids
    · exact h.keys.sublist hkeys
    · exact hbelow
  · refine ⟨?_, ?_, ?_⟩ <;> rw [Dispatcher.turn, ha]
    · rw [List.map_append]
      refine List.nodup_append.mpr ⟨h.ids.sublist hids, List.nodup_singleton _, ?_⟩
      intro i hi j hj
      obtain ⟨b, hb, rfl⟩ := List.mem_map.mp (hids.subset hi)
      rw [List.mem_singleton.mp hj]
      exact hfree b hb
    · rw [List.map_append]
      refine List.nodup_append.mpr ⟨h.keys.sublist hkeys, List.nodup_singleton _, ?_⟩
      intro k hk j hj
      obtain ⟨b, hb, rfl⟩ := List.mem_map.mp (hkeys.subset hk)
      have hj : j = d.nextKey := List.mem_singleton.mp hj
      exact hj ▸ Nat.ne_of_lt (h.below b hb)
    · intro b hb
      rcases List.mem_append.mp hb with hb | hb
      · exact Nat.lt_succ_of_lt (hbelow b hb)
      · rw [List.mem_singleton.mp hb]
        exact Nat.lt_succ_self _

theorem Orderly.turns (h : d.Orderly) (ts : List Turn) : (d.turns ts).Orderly := by
  induction ts generalizing d with
  | nil => exact h
  | cons t ts ih => exact ih (h.turn t)

end Dispatcher
end RpcPeer
