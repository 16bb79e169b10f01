import RpcPeer.Proofs.Frame.Unheld
import RpcPeer.Proofs.Peer.Effects
import RpcPeer.Session.Connection

/-! The reading task over a stream of bytes, in whatever pieces they arrive. -/
namespace RpcPeer

/-- What a reading task does, one thing after the other. -/
inductive Deed
  | start
  | note (e : LogEntry)
  | receive (text : String)
  | finish (result : Except SessionError SessionEnd)

/-- What a deed does to the peer; `abandons` tells whether the session gives up requests in the end.
-/
def Deed.apply (abandons : Bool) (p : Peer) : Deed → Peer
  | .start => p.log .debug s!"Session started ({p.codec.dialect.display} dialect)"
  | .note e => p.write e
  | .receive text => p.receiveText text
  | .finish result =>
    (SessionReader.finish { source := .texts [], abandonPending := abandons } p result).2

namespace Frame

/-- How an attempt ends a session, if it does. -/
def Step.result? : Step → Option (Except SessionError SessionEnd)
  | .failed e _ => if e.isFatal then some (.error (.transport e)) else none
  | .finished => some (.ok .endOfStream)
  | .panicked => some (.error bufferPanic)
  | .frame .. | .waiting .. => none

/-- What an attempt has the session do, besides what it logs. -/
def Step.deeds : Step → List Deed
  | .frame text _ => [.receive text]
  | .failed e _ =>
    if e.isFatal then [.finish (.error (.transport e))]
    else [.note ⟨.warn, s!"Skipping unreadable frame: {e.message}"⟩]
  | .finished => [.finish (.ok .endOfStream)]
  | .panicked => [.finish (.error bufferPanic)]
  | .waiting .. => []

/-- What a session does for attempts that follow each other. -/
def deeds (attempts : List Attempt) : List Deed :=
  attempts.flatMap fun a => a.log.map .note ++ a.step.deeds

section
variable {max : Nat} {ended : Bool} {place place' : Place} {bytes rest unread more : List UInt8}
  {log : List LogEntry} {step : Step} {result : Except SessionError SessionEnd}
  {before : List Attempt} {last : Attempt}

theorem Step.deeds_of_result? (h : step.result? = some result) : step.deeds = [.finish result] := by
  cases step with
  | failed e rest =>
    simp only [Step.result?] at h
    split at h
    next hfatal =>
      cases h
      simp only [Step.deeds, hfatal]
      rfl
    next => cases h
  | finished | panicked =>
    cases h
    rfl
  | frame | waiting => cases h

theorem Step.finish_notMem_deeds (h : step.result? = none)
    (result : Except SessionError SessionEnd) : .finish result ∉ step.deeds := by
  cases step with
  | failed e rest =>
    cases hfatal : e.isFatal with
    | true => simp [Step.result?, hfatal] at h
    | false => simp [Step.deeds, hfatal]
  | finished | panicked => cases h
  | frame | waiting => simp [Step.deeds]

/-- A session goes on exactly where another attempt follows. -/
theorem Step.result?_of_next? (h : step.next? = some rest) : step.result? = none := by
  cases step with
  | failed e rest =>
    cases hfatal : e.isFatal with
    | true => simp [Step.next?, hfatal] at h
    | false => simp [Step.result?, hfatal]
  | frame => rfl
  | finished | panicked | waiting => cases h

theorem Step.exists_result? (h : step.next? = none)
    (hw : ∀ place unread, step ≠ .waiting place unread) : ∃ result, step.result? = some result := by
  cases step with
  | failed e rest =>
    cases hfatal : e.isFatal with
    | true => exact ⟨.error (.transport e), by simp [Step.result?, hfatal]⟩
    | false => simp [Step.next?, hfatal] at h
  | finished => exact ⟨_, rfl⟩
  | panicked => exact ⟨_, rfl⟩
  | frame => cases h
  | waiting place unread => exact absurd rfl (hw place unread)

theorem Step.endOfStream_iff (h : step.result? = some result) :
    result = .ok .endOfStream ↔ step = .finished := by
  cases step with
  | failed e rest =>
    simp only [Step.result?] at h
    split at h <;> cases h
    simp
  | finished | panicked =>
    cases h
    simp
  | frame | waiting => cases h

theorem Step.panic_iff (h : step.result? = some result) :
    result = .error bufferPanic ↔ step = .panicked := by
  cases step with
  | failed e rest =>
    simp only [Step.result?] at h
    split at h <;> cases h
    simp [bufferPanic]
  | finished | panicked =>
    cases h
    simp
  | frame | waiting => cases h

theorem Step.fatal_of_result? (h : step.result? = some result) (hend : step ≠ .finished)
    (hpanic : step ≠ .panicked) : ∃ e, result = .error (.transport e) ∧ e.isFatal = true := by
  cases step with
  | failed e rest =>
    simp only [Step.result?] at h
    split at h <;> cases h
    exact ⟨e, rfl, ‹_›⟩
  | finished => exact absurd rfl hend
  | panicked => exact absurd rfl hpanic
  | frame | waiting => cases h

/-- How a stream is read: after each attempt but the last another one follows, and the last ends the
session. It is the end of the stream exactly if an attempt finds nothing but blank lines, and a
panic exactly if one finds a length that no buffer holds; else a fatal error is found. -/
structure ReadAs (max : Nat) (bytes : List UInt8) (before : List Attempt) (last : Attempt)
    (result : Except SessionError SessionEnd) : Prop where
  split : attempts max bytes = before ++ [last]
  items : readAll max bytes = (before ++ [last]).filterMap Attempt.item?
  goesOn : ∀ a ∈ before, a.step.result? = none
  ends : last.step.result? = some result
  endOfStream_iff : result = .ok .endOfStream ↔ Meets max OnlyBlank bytes
  panic_iff : result = .error bufferPanic ↔ Meets max (Unheld max) bytes
  fatal : ¬ Meets max OnlyBlank bytes → ¬ Meets max (Unheld max) bytes →
    ∃ e, result = .error (.transport e) ∧ e.isFatal = true

theorem next?_of_onlyBlank (h : OnlyBlank bytes) : (nextOf max bytes).step.next? = none := by
  rw [finished_iff.mpr h]
  rfl

theorem next?_of_unheld (h : Unheld max bytes) : (nextOf max bytes).step.next? = none := by
  rw [panicked_iff.mpr h]
  rfl

theorem ReadAs.cons (h : ReadAs max rest before last result)
    (hn : (nextOf max bytes).step.next? = some rest) :
    ReadAs max bytes (nextOf max bytes :: before) last result := by
  have hattempts : attempts max bytes = nextOf max bytes :: (before ++ [last]) := by
    rw [attempts_of_next? hn, h.split]
  have hblank : Meets max OnlyBlank bytes ↔ Meets max OnlyBlank rest :=
    meets_iff_of_next? (fun _ => next?_of_onlyBlank) hn
  have hunheld : Meets max (Unheld max) bytes ↔ Meets max (Unheld max) rest :=
    meets_iff_of_next? (fun _ => next?_of_unheld) hn
  exact {
    split := hattempts
    items := by rw [readAll_eq, hattempts]; rfl
    goesOn := by simpa [Step.result?_of_next? hn] using h.goesOn
    ends := h.ends
    endOfStream_iff := h.endOfStream_iff.trans hblank.symm
    panic_iff := h.panic_iff.trans hunheld.symm
    fatal := by rw [hblank, hunheld]; exact h.fatal }

theorem exists_readAs_of_last (hn : (nextOf max bytes).step.next? = none) :
    ∃ result, ReadAs max bytes [] (nextOf max bytes) result := by
  obtain ⟨result, hresult⟩ := Step.exists_result? hn fun _ _ => not_waiting
  have hattempts := attempts_of_last hn
  refine ⟨result, hattempts, by rw [readAll_eq, hattempts]; rfl, by simp, hresult, ?_, ?_, ?_⟩
  · rw [meets_iff_of_last hn, ← finished_iff, Step.endOfStream_iff hresult]
  · rw [meets_iff_of_last hn, ← panicked_iff, Step.panic_iff hresult]
  · rw [meets_iff_of_last hn, meets_iff_of_last hn, ← finished_iff, ← panicked_iff]
    exact Step.fatal_of_result? hresult

theorem exists_readAs (max : Nat) (bytes : List UInt8) :
    ∃ before last result, ReadAs max bytes before last result := by
  induction hlen : bytes.length using Nat.strong_induction_on generalizing bytes with
  | _ n ih =>
    subst hlen
    cases hn : (nextOf max bytes).step.next? with
    | none =>
      obtain ⟨result, h⟩ := exists_readAs_of_last hn
      exact ⟨[], _, result, h⟩
    | some rest =>
      obtain ⟨before, last, result, h⟩ :=
        ih rest.length (progress Place.sound_start hn).2 rest rfl
      exact ⟨_, last, result, h.cons hn⟩

theorem ReadAs.deeds_eq (h : ReadAs max bytes before last result) :
    deeds (before ++ [last]) = deeds before ++ (last.log.map .note ++ [.finish result]) := by
  simp [deeds, Step.deeds_of_result? h.ends]

theorem ReadAs.finish_notMem (h : ReadAs max bytes before last result)
    (other : Except SessionError SessionEnd) : .finish other ∉ deeds before := by
  intro hm
  obtain ⟨a, ha, hm⟩ := List.mem_flatMap.mp hm
  rcases List.mem_append.mp hm with hnote | hdeed
  · obtain ⟨e, -, he⟩ := List.mem_map.mp hnote
    cases he
  · exact Step.finish_notMem_deeds (h.goesOn a ha) other hdeed

theorem ReadAs.receive_mem (h : ReadAs max bytes before last result) {text : String}
    (hm : .body text ∈ (readAll max bytes).map (·.1)) : .receive text ∈ deeds before := by
  obtain ⟨x, hx, htext⟩ := List.mem_map.mp hm
  rw [h.items] at hx
  obtain ⟨a, ha, hitem⟩ := List.mem_filterMap.mp hx
  have hstep : ∃ rest, a.step = .frame text rest := by
    unfold Attempt.item? at hitem
    split at hitem <;> cases hitem <;> cases htext
    exact ⟨_, ‹a.step = _›⟩
  obtain ⟨rest, hstep⟩ := hstep
  rcases List.mem_append.mp ha with ha | ha
  · exact List.mem_flatMap.mpr ⟨a, ha, by simp [hstep, Step.deeds]⟩
  · have hends := h.ends
    rw [← List.mem_singleton.mp ha, hstep] at hends
    cases hends

theorem ReadAs.result_eq (h : ReadAs max bytes before last result)
    (hm : .ended ∈ (readAll max bytes).map (·.1)) : result = .ok .endOfStream := by
  obtain ⟨x, hx, hended⟩ := List.mem_map.mp hm
  rw [h.items] at hx
  obtain ⟨a, ha, hitem⟩ := List.mem_filterMap.mp hx
  have hstep : a.step = .finished := by
    unfold Attempt.item? at hitem
    split at hitem <;> cases hitem <;> cases hended
    assumption
  rcases List.mem_append.mp ha with ha | ha
  · have hgoesOn := h.goesOn a ha
    rw [hstep] at hgoesOn
    cases hgoesOn
  · exact (Step.endOfStream_iff h.ends).mpr (List.mem_singleton.mp ha ▸ hstep)

/-- Only from a limit of `2 ^ 63` on a session can panic. -/
theorem ReadAs.ne_panic (h : ReadAs max bytes before last result) (hmax : max < bufferBound) :
    result ≠ .error bufferPanic := fun hp =>
  absurd (bufferBound_le_of_meets (h.panic_iff.mp hp)) (Nat.not_le.mpr hmax)

/-- Of a stream that has ended there are no more bytes. -/
theorem next_more (hm : ended = true → more = []) (place : Place) (bytes : List UInt8) :
    next max true place (bytes ++ more) =
      (next max ended place bytes).followedBy max true more := by
  cases ended with
  | false => exact next_append max true place bytes more
  | true =>
    rw [hm rfl, List.append_nil]
    rcases ha : next max true place bytes with ⟨log, step⟩
    cases step with
    | frame | failed => simp [Attempt.followedBy]
    | finished | panicked => rfl
    | waiting place unread => exact absurd (congrArg Attempt.step ha) not_waiting

/-- The deeds for a whole stream, told by the first attempt on the bytes that have arrived. -/
theorem deeds_of_next? (hm : ended = true → more = [])
    (ha : next max ended place bytes = ⟨log, step⟩) (hn : step.next? = some rest) :
    deeds (attemptsOn max place (bytes ++ more)) =
      (log.map .note ++ step.deeds) ++ deeds (attemptsOn max .start (rest ++ more)) := by
  rw [attemptsOn, next_more hm, ha, ← attempts_eq]
  cases step with
  | frame text rest =>
    cases hn
    simp [deeds, Attempt.followedBy, Attempt.followers, Step.deeds, Step.next?]
  | failed e rest =>
    simp only [Step.next?] at hn
    split at hn <;> cases hn
    simp [deeds, Attempt.followedBy, Attempt.followers, Step.deeds, Step.next?, *]
  | finished | panicked | waiting => cases hn

theorem deeds_attemptsOn_of_result? (hm : ended = true → more = [])
    (ha : next max ended place bytes = ⟨log, step⟩) (hr : step.result? = some result) :
    deeds (attemptsOn max place (bytes ++ more)) = log.map .note ++ [.finish result] := by
  rw [attemptsOn, next_more hm, ha, ← Step.deeds_of_result? hr]
  cases step with
  | failed e rest =>
    simp only [Step.result?] at hr
    split at hr <;> cases hr
    simp [deeds, Attempt.followedBy, Attempt.followers, Step.deeds, Step.next?, *]
  | finished | panicked =>
    simp [deeds, Attempt.followedBy, Attempt.followers, Step.deeds, Step.next?]
  | frame | waiting => cases hr

theorem deeds_of_waiting (hm : ended = true → more = [])
    (ha : next max ended place bytes = ⟨log, .waiting place' unread⟩) :
    deeds (attemptsOn max place (bytes ++ more)) =
      log.map .note ++ deeds (attemptsOn max place' (unread ++ more)) := by
  rw [attemptsOn, next_more hm, ha]
  simp [attemptsOn, deeds, Attempt.followedBy, Attempt.followers, Attempt.after]

end
end Frame

namespace Source

/-- The source with further bytes at its end. -/
def feed (bytes : List UInt8) : Source → Source
  | .bytes max place unread => .bytes max place (unread ++ bytes)
  | .texts unread => .texts unread

/-- What is to be done for the bytes of a source if these follow and no more. -/
def deeds (more : List UInt8) : Source → List Deed
  | .bytes max place unread => Frame.deeds (Frame.attemptsOn max place (unread ++ more))
  | .texts _ => []

theorem deeds_feed (bytes more : List UInt8) (s : Source) :
    (s.feed bytes).deeds more = s.deeds (bytes ++ more) := by
  cases s with
  | bytes max place unread => simp only [feed, deeds, List.append_assoc]
  | texts => rfl

end Source

namespace SessionReader
open RpcPeer.Frame

def feed (r : SessionReader) (bytes : List UInt8) : SessionReader :=
  { r with source := r.source.feed bytes }

/-- What is still to be done by a reader to which these bytes will come, and then no more. -/
def remaining (r : SessionReader) (more : List UInt8) : List Deed :=
  if r.result.isSome then [] else (if r.started then [] else [.start]) ++ r.source.deeds more

/-- A reader of bytes that nobody has told to stop. -/
structure Reads (r : SessionReader) : Prop where
  source : ∃ max place unread, r.source = .bytes max place unread ∧ place.Sound
  going : r.stopping = false

/-- A reader becomes another one when it goes on, and does its share of what is to be done. -/
structure Runs (go : Peer → SessionReader × Peer) (r r' : SessionReader) (share : List Deed) :
    Prop where
  run : ∀ p, go p = (r', share.foldl (Deed.apply r.abandonPending) p)
  reads : r'.Reads
  abandons : r'.abandonPending = r.abandonPending
  ended : r'.ended = r.ended
  remaining : ∀ more, (r.ended = true → more = []) →
    r.remaining more = share ++ r'.remaining more
  closed : r.ended = true → r'.result.isSome = true
  result : ∀ result, r'.result = some result →
    r.result = some result ∧ share = [] ∨ share.getLast? = some (.finish result)

/-- Pieces of a stream arrive, after each the reader goes on, and with the last the stream ends.
Each time the connection may be any that has this reader: what is done to it is the same. -/
inductive Attends : SessionReader → List (List UInt8) → List Deed → SessionReader → Prop
  | last {r r' : SessionReader} {bytes : List UInt8} {share : List Deed}
      (h : ∀ c : Connection, c.reader = some r → (c.feedBytes bytes).endInput.runReader =
        { c with
          reader := some r'
          peer := share.foldl (Deed.apply r.abandonPending)
            ((c.peer.wake .reader).wake .reader) }) :
      Attends r [bytes] share r'
  | piece {r r' r'' : SessionReader} {bytes : List UInt8} {pieces : List (List UInt8)}
      {share rest : List Deed}
      (h : ∀ c : Connection, c.reader = some r → (c.feedBytes bytes).runReader =
        { c with
          reader := some r'
          peer := share.foldl (Deed.apply r.abandonPending) (c.peer.wake .reader) })
      (ht : Attends r' pieces rest r'') : Attends r (bytes :: pieces) (share ++ rest) r''

section
variable {r r' : SessionReader} {share : List Deed}

theorem finish_eq (r : SessionReader) (p : Peer) (result : Except SessionError SessionEnd) :
    r.finish p result =
      ({ r with result := some result }, (Deed.finish result).apply r.abandonPending p) := rfl

theorem Runs.after {go go' : Peer → SessionReader × Peer} {first : List Deed} {s : SessionReader}
    (h : Runs go s r' share) (hs : s.result = none)
    (habandons : r.abandonPending = s.abandonPending) (hended : r.ended = s.ended)
    (hgo : ∀ p, go' p = go (first.foldl (Deed.apply r.abandonPending) p))
    (hrem : ∀ more, (r.ended = true → more = []) → r.remaining more = first ++ s.remaining more) :
    Runs go' r r' (first ++ share) where
  run p := by rw [hgo, h.run, habandons, List.foldl_append]
  reads := h.reads
  abandons := h.abandons.trans habandons.symm
  ended := h.ended.trans hended.symm
  remaining more hm := by
    rw [hrem more hm, h.remaining more (hended ▸ hm), List.append_assoc]
  closed he := h.closed (hended ▸ he)
  result x hx := by
    rcases h.result x hx with ⟨hsome, -⟩ | hlast
    · exact absurd (hs.symm.trans hsome) (by simp)
    · exact .inr (by rw [List.getLast?_append, hlast]; rfl)

/-- The reader that comes from the last deed of a session. -/
theorem Runs.finish {go : Peer → SessionReader × Peer} {s : SessionReader} (first : List Deed)
    (result : Except SessionError SessionEnd) (hs : { s with result := some result }.Reads)
    (habandons : r.abandonPending = s.abandonPending) (hended : r.ended = s.ended)
    (hgo : ∀ p, go p = s.finish (first.foldl (Deed.apply r.abandonPending) p) result)
    (hrem : ∀ more, (r.ended = true → more = []) → r.remaining more = first ++ [.finish result]) :
    Runs go r { s with result := some result } (first ++ [.finish result]) where
  run p := by rw [hgo, finish_eq, habandons, List.foldl_append]; rfl
  reads := hs
  abandons := habandons.symm
  ended := hended.symm
  remaining more hm := (hrem more hm).trans (List.append_nil _).symm
  closed _ := rfl
  result x hx := by
    cases hx
    exact .inr (by simp)

/-- A reader that waits for more bytes. -/
theorem Runs.wait {go : Peer → SessionReader × Peer} {s : SessionReader} (hs : s.Reads)
    (habandons : s.abandonPending = r.abandonPending) (hended : s.ended = r.ended)
    (hopen : r.ended = false) (hnone : s.result = none)
    (hgo : ∀ p, go p = (s, share.foldl (Deed.apply r.abandonPending) p))
    (hrem : ∀ more, (r.ended = true → more = []) → r.remaining more = share ++ s.remaining more) :
    Runs go r s share where
  run := hgo
  reads := hs
  abandons := habandons
  ended := hended
  remaining := hrem
  closed he := absurd (hopen.symm.trans he) (by decide)
  result x hx := absurd (hnone.symm.trans hx) (by simp)

theorem remaining_bytes (hr : r.result = none) (hstart : r.started = true) (max : Nat)
    (place : Place) (bytes more : List UInt8) :
    { r with source := .bytes max place bytes }.remaining more =
      deeds (attemptsOn max place (bytes ++ more)) := by
  simp [SessionReader.remaining, hr, hstart, Source.deeds]

theorem writeAll_eq (log : List LogEntry) (abandons : Bool) (p : Peer) :
    p.writeAll log = (log.map .note).foldl (Deed.apply abandons) p := by
  rw [List.foldl_map]
  rfl

/-- As far as the bytes go: in the end the reader waits for more or the session is over. -/
theorem exists_runs_pumpBytes (r : SessionReader) (hr : r.result = none) (hstart : r.started = true)
    (hgoing : r.stopping = false) (max : Nat) {rounds : Nat} {place : Place} {bytes : List UInt8}
    (hp : place.Sound) (hlen : bytes.length < rounds) :
    ∃ r' share, Runs (fun p => r.pumpBytes p max rounds place bytes)
      { r with source := .bytes max place bytes } r' share := by
  induction rounds generalizing place bytes with
  | zero => exact absurd hlen (Nat.not_lt_zero _)
  | succ rounds ih =>
    have hrem := remaining_bytes hr hstart max
    have hsound := @sound_of_waiting max r.ended place bytes
    rcases ha : next max r.ended place bytes with ⟨log, step⟩
    -- either the session goes on behind this attempt, or it is over, or it waits
    have hgo (rest : List UInt8) (hn : step.next? = some rest)
        (hpump : ∀ p, r.pumpBytes p max (rounds + 1) place bytes = r.pumpBytes
          ((log.map Deed.note ++ step.deeds).foldl (Deed.apply r.abandonPending) p) max rounds
          .start rest) :
        ∃ r' share, Runs (fun p => r.pumpBytes p max (rounds + 1) place bytes)
          { r with source := .bytes max place bytes } r' share := by
      have hshort : rest.length < rounds := by
        have := (progress hp (by rw [ha]; exact hn)).2
        omega
      obtain ⟨r', share, h⟩ := ih Place.sound_start hshort
      refine ⟨r', _, h.after hr rfl rfl hpump fun more hm => ?_⟩
      rw [hrem, hrem, deeds_of_next? hm ha hn]
    have hover (rest : List UInt8) (result : Except SessionError SessionEnd)
        (hresult : step.result? = some result)
        (hpump : ∀ p, r.pumpBytes p max (rounds + 1) place bytes =
          { r with source := .bytes max .start rest }.finish
            ((log.map Deed.note).foldl (Deed.apply r.abandonPending) p) result) :
        ∃ r' share, Runs (fun p => r.pumpBytes p max (rounds + 1) place bytes)
          { r with source := .bytes max place bytes } r' share := by
      refine ⟨_, _, Runs.finish (s := { r with source := .bytes max .start rest }) (log.map .note)
        result ⟨⟨_, _, _, rfl, Place.sound_start⟩, hgoing⟩ rfl rfl hpump fun more hm => ?_⟩
      rw [hrem, deeds_attemptsOn_of_result? hm ha hresult]
    cases step with
    | frame text rest =>
      refine hgo rest rfl fun p => ?_
      simp only [pumpBytes, ha, writeAll_eq log r.abandonPending]
      rw [List.foldl_append]
      rfl
    | failed e rest =>
      cases hfatal : e.isFatal with
      | true =>
        refine hover rest (.error (.transport e)) (by simp [Step.result?, hfatal]) fun p => ?_
        simp only [pumpBytes, ha, hfatal, writeAll_eq log r.abandonPending]
        rfl
      | false =>
        refine hgo rest (by simp [Step.next?, hfatal]) fun p => ?_
        simp only [pumpBytes, ha, hfatal, Step.deeds, writeAll_eq log r.abandonPending]
        rw [List.foldl_append]
        rfl
    | finished =>
      refine hover [] (.ok .endOfStream) rfl fun p => ?_
      simp only [pumpBytes, ha, writeAll_eq log r.abandonPending]
    | panicked =>
      refine hover [] (.error bufferPanic) rfl fun p => ?_
      simp only [pumpBytes, ha, writeAll_eq log r.abandonPending]
    | waiting place' unread =>
      have hopen : r.ended = false := by
        cases he : r.ended with
        | false => rfl
        | true =>
          rw [he] at ha
          exact absurd (congrArg Attempt.step ha) not_waiting
      refine ⟨{ r with source := .bytes max place' unread }, log.map .note,
        .wait ⟨⟨_, _, _, rfl, hsound (by rw [ha])⟩, hgoing⟩ rfl rfl hopen hr ?_ ?_⟩
      · intro p
        simp only [pumpBytes, ha, writeAll_eq log r.abandonPending]
      · intro more hm
        rw [hrem, hrem, deeds_of_waiting hm ha]

theorem exists_runs (h : r.Reads) : ∃ r' share, Runs r.run r r' share := by
  obtain ⟨⟨max, place, bytes, hsource, hp⟩, hgoing⟩ := h
  cases hr : r.result with
  | some x =>
    refine ⟨r, [], fun p => ?_, ⟨⟨max, place, bytes, hsource, hp⟩, hgoing⟩, rfl, rfl,
      fun _ _ => rfl, fun _ => by simp [hr], fun y hy => .inl ⟨by rw [← hy, hr], rfl⟩⟩
    simp [run, isRunning, hr]
  | none =>
    obtain ⟨r', share, h⟩ := exists_runs_pumpBytes { r with started := true } hr rfl hgoing max hp
      (Nat.lt_succ_self bytes.length)
    refine ⟨r', (if r.started then [] else [.start]) ++ share, h.after hr rfl rfl ?_ ?_⟩
    · intro p
      simp only [run, isRunning, hr, hgoing, hsource]
      cases r.started <;> rfl
    · intro more _
      simp [remaining, hr, hsource, Source.deeds]

theorem remaining_feed (r : SessionReader) (bytes more : List UInt8) :
    (r.feed bytes).remaining more = r.remaining (bytes ++ more) := by
  unfold remaining
  rw [← Source.deeds_feed]
  rfl

theorem Reads.feed (h : r.Reads) (bytes : List UInt8) : (r.feed bytes).Reads := by
  obtain ⟨⟨max, place, unread, hsource, hp⟩, hgoing⟩ := h
  exact ⟨⟨max, place, unread ++ bytes, by simp only [SessionReader.feed, hsource, Source.feed], hp⟩,
    hgoing⟩

theorem Reads.feedBytes (h : r.Reads) {c : Connection} (hc : c.reader = some r)
    (bytes : List UInt8) : c.feedBytes bytes =
      { c with reader := some (r.feed bytes), peer := c.peer.wake .reader } := by
  obtain ⟨⟨max, place, unread, hsource, -⟩, -⟩ := h
  simp only [Connection.feedBytes, hc, hsource, SessionReader.feed, Source.feed]

theorem Runs.getLast? {go : Peer → SessionReader × Peer} (h : Runs go r r' share)
    {past : List Deed} (hpast : ∀ x, r.result = some x → past.getLast? = some (.finish x)) (x)
    (hx : r'.result = some x) : (past ++ share).getLast? = some (.finish x) := by
  rcases h.result x hx with ⟨hsome, rfl⟩ | hshare
  · rw [List.append_nil]
    exact hpast x hsome
  · rw [List.getLast?_append, hshare]
    rfl

/-- Whatever the pieces are, what remains to be done is done and then the session is over. -/
theorem exists_attends (h : r.Reads) (hopen : r.ended = false) (pieces : List (List UInt8))
    (bytes : List UInt8) (past : List Deed)
    (hpast : ∀ x, r.result = some x → past.getLast? = some (.finish x)) :
    ∃ r' result, Attends r (pieces ++ [bytes]) (r.remaining (pieces ++ [bytes]).flatten) r' ∧
      r'.result = some result ∧
      (past ++ r.remaining (pieces ++ [bytes]).flatten).getLast? = some (.finish result) := by
  induction pieces generalizing r past with
  | nil =>
    have hreads : { r.feed bytes with ended := true }.Reads :=
      ⟨(h.feed bytes).source, (h.feed bytes).going⟩
    obtain ⟨r', share, hrun⟩ := exists_runs hreads
    obtain ⟨result, hresult⟩ := Option.isSome_iff_exists.mp (hrun.closed rfl)
    have hall : r.remaining ([] ++ [bytes]).flatten = share := by
      have hrem := hrun.remaining [] fun _ => rfl
      have hnil : r'.remaining [] = [] := by simp [remaining, hresult]
      have hfeed : r.remaining (bytes ++ []) = share ++ r'.remaining [] :=
        (remaining_feed r bytes []).symm.trans hrem
      simpa [hnil] using hfeed
    rw [hall]
    refine ⟨r', result, .last fun c hc => ?_, hresult, hrun.getLast? hpast result hresult⟩
    simp only [h.feedBytes hc, Connection.endInput, Connection.runReader, hrun.run]
    rfl
  | cons piece pieces ih =>
    obtain ⟨r', share, hrun⟩ := exists_runs (h.feed piece)
    have hclosed : ¬ (r.feed piece).ended = true :=
      fun he => absurd (hopen.symm.trans he) (by decide)
    have hall : r.remaining (piece :: pieces ++ [bytes]).flatten =
        share ++ r'.remaining (pieces ++ [bytes]).flatten := by
      rw [← hrun.remaining _ fun he => absurd he hclosed, remaining_feed]
      rfl
    obtain ⟨last, result, hattends, hresult, hlast⟩ :=
      ih hrun.reads (hrun.ended.trans hopen) _ (hrun.getLast? hpast)
    rw [hall, ← List.append_assoc]
    refine ⟨last, result, .piece (fun c hc => ?_) hattends, hresult, hlast⟩
    simp only [h.feedBytes hc, Connection.runReader, hrun.run]
    rfl

/-- The session may go on, or it has ended in a panic, or nothing is pending. -/
def LeavesNone (x : SessionReader × Peer) : Prop :=
  ∀ result, x.1.result = some result → result ≠ .error bufferPanic → x.2.pending = []

theorem leavesNone_finish (r : SessionReader) (h : r.abandonPending = true) (p : Peer)
    {result : Except SessionError SessionEnd} (hr : ∀ reason, result ≠ .error (.panicked reason)) :
    LeavesNone (r.finish p result) := by
  have hclose (q : Peer) (hq : q.pending = []) : q.closeUnheld.pending = [] := by
    unfold Peer.closeUnheld
    split
    · exact hq
    · simp only [Peer.close, hq, List.foldl_nil]
      rfl
  have hgiveUp (q : Peer) : (r.giveUp q).pending = [] := by
    rw [giveUp, if_pos h]
    exact Peer.pending_abandonPending q
  intro _ _ _
  match result with
  | .ok e => exact hclose _ (hgiveUp _)
  | .error (.transport e) => exact hclose _ (hgiveUp _)
  | .error (.panicked reason) => exact absurd rfl (hr reason)

/-- A session that panics gives nothing up, and a peer that somebody holds stays open. -/
theorem pending_finish_panic (abandons : Bool) (p : Peer)
    (hp : Peer.isHeld { p with inSession := false } = true) :
    ((Deed.finish (.error bufferPanic)).apply abandons p).pending = p.pending := by
  have hopen : Peer.closeUnheld { p with inSession := false } = { p with inSession := false } :=
    if_pos (by rw [hp]; rfl)
  exact (congrArg Peer.pending hopen :)

theorem leavesNone_of_result (r : SessionReader) (hr : r.result = none) (p : Peer) :
    LeavesNone (r, p) := fun _ hover => absurd hover (by simp [hr])

theorem leavesNone_pumpBytes (r : SessionReader) (h : r.abandonPending = true)
    (hr : r.result = none) (p : Peer) (max rounds : Nat) (place : Place) (bytes : List UInt8) :
    LeavesNone (r.pumpBytes p max rounds place bytes) := by
  induction rounds generalizing place bytes p with
  | zero => exact leavesNone_of_result { r with source := .bytes max place bytes } hr p
  | succ rounds ih =>
    rcases ha : next max r.ended place bytes with ⟨log, step⟩
    simp only [pumpBytes, ha]
    cases step with
    | frame text rest => exact ih _ _ _
    | failed e rest =>
      cases hfatal : e.isFatal with
      | true =>
        simp only [hfatal]
        exact leavesNone_finish { r with source := .bytes max .start rest } h _ (by simp)
      | false =>
        simp only [hfatal]
        exact ih _ _ _
    | finished =>
      exact leavesNone_finish { r with source := .bytes max .start [] } h _ (by simp)
    | panicked => exact fun _ hresult hne => absurd (Option.some.inj hresult).symm hne
    | waiting place unread =>
      exact leavesNone_of_result { r with source := .bytes max place unread } hr _

/-- A session that gives up requests leaves none behind, unless it panics. -/
theorem leavesNone_run (r : SessionReader) (h : r.abandonPending = true) (hr : r.result = none)
    (p : Peer) : LeavesNone (r.run p) := by
  have hrunning : (!r.isRunning) = false := by simp [isRunning, hr]
  simp only [run, hrunning]
  cases hstop : r.stopping with
  | true => exact leavesNone_finish { r with started := true, stopping := true } h _ (by simp)
  | false =>
    cases hs : r.source with
    | texts texts =>
      cases hended : r.ended with
      | true =>
        simp only [pumpTexts]
        exact leavesNone_finish { r with started := true, ended := true, source := .texts [] } h _
          (by simp)
      | false =>
        simp only [pumpTexts]
        exact leavesNone_of_result { r with started := true, source := .texts [] } hr _
    | bytes max place bytes =>
      exact leavesNone_pumpBytes
        { r with started := true, stopping := false, source := .bytes max place bytes } h hr
        _ _ _ _ _

end

/-- The session over a stream of bytes, in whatever pieces they arrive. Every attempt that another
one follows uses up bytes. What is read until the end of the stream, the first fatal error or a
panic is handed to the peer in its order, that tells how the session ends, and nothing comes after
it. A session that gives up requests leaves none behind if it does not panic, which needs a limit of
`2 ^ 63` or more; if it does, they stay pending at a peer that somebody holds. -/
theorem attends_pieces (max : Nat) (abandons : Bool) (pieces : List (List UInt8))
    (bytes : List UInt8) :
    (∀ xs rest, (nextOf max xs).step.next? = some rest → rest <:+ xs ∧ rest.length < xs.length) ∧
    (∃ before last result r', ReadAs max (pieces ++ [bytes]).flatten before last result ∧
      Attends { source := .bytes max .start [], abandonPending := abandons } (pieces ++ [bytes])
        (.start :: (deeds before ++ (last.log.map .note ++ [.finish result]))) r' ∧
      (∀ other, .finish other ∉ deeds before) ∧ r'.result = some result ∧
      (max < bufferBound → result ≠ .error bufferPanic)) ∧
    (∀ (r : SessionReader) (p : Peer), r.abandonPending = true → r.result = none → ∀ result,
      (r.run p).1.result = some result → result ≠ .error bufferPanic →
        (r.run p).2.pending = []) ∧
    ∀ p : Peer, Peer.isHeld { p with inSession := false } = true →
      ((Deed.finish (.error bufferPanic)).apply abandons p).pending = p.pending := by
  refine ⟨fun xs rest hn => progress Place.sound_start hn, ?_,
    fun r p h hr => leavesNone_run r h hr p, pending_finish_panic abandons⟩
  obtain ⟨before, last, result, hread⟩ := exists_readAs max (pieces ++ [bytes]).flatten
  let r : SessionReader := { source := .bytes max .start [], abandonPending := abandons }
  have hremaining : r.remaining (pieces ++ [bytes]).flatten =
      .start :: (deeds before ++ (last.log.map .note ++ [.finish result])) := by
    rw [← hread.deeds_eq, ← hread.split, attempts_eq]
    rfl
  obtain ⟨r', result', hattends, hresult, hlast⟩ :=
    exists_attends (r := r) ⟨⟨max, .start, [], rfl, Place.sound_start⟩, rfl⟩ rfl pieces bytes []
      (by simp)
  rw [hremaining] at hattends hlast
  have hsame : result = result' := by
    rw [List.nil_append, ← List.append_assoc, ← List.cons_append, List.getLast?_concat] at hlast
    cases hlast
    rfl
  exact ⟨before, last, result, r', hread, hattends, hread.finish_notMem, hsame ▸ hresult,
    hread.ne_panic⟩

/-- A block without a length is skipped, and the frame after it is cut in two; a session that is
stopped gives up its request. -/
theorem attends_pieces_skipped_block :
    let b : Block := {
      headers := [.malformed ['x'] ⟨'x', List.mem_cons_self, by decide⟩ (by decide) (by decide)]
      nonempty := List.cons_ne_nil _ _
      separator := emptyLine
      body := []
      sized := rfl
      fits := by decide }
    let stream := b.bytes ++ (Block.ofBody "\x7b\x7d" (by decide)).bytes
    let p : Peer :=
      { codec := ⟨.base, ⟨[]⟩, 1⟩, service := .empty "", pending := [⟨.number 7, "shout", 0⟩] }
    let q : SessionReader := { source := .texts [], stopping := true, abandonPending := true }
    (∃ rest, (nextOf 5 stream).step.next? = some rest ∧ rest.length < stream.length) ∧
    (∃ ds r', Attends { source := .bytes 5 .start [] } ([stream.take 9] ++ [stream.drop 9]) ds r' ∧
      .receive "\x7b\x7d" ∈ ds ∧ r'.result = some (.ok .endOfStream)) ∧ 5 < bufferBound ∧
    q.abandonPending = true ∧ q.result = none ∧ (q.run p).1.result = some (.ok .cancelled) ∧
      (q.run p).2.pending = [] ∧ Peer.isHeld { p with inSession := false } = true ∧
      ((Deed.finish (.error bufferPanic)).apply false p).pending = p.pending := by
  intro b stream p q
  obtain ⟨hprogress, ⟨before, last, result, r', hread, hattends, -, hresult, -⟩, hpending,
    hpanic⟩ := attends_pieces 5 false [stream.take 9] (stream.drop 9)
  have hunframed : b.length? = none := rfl
  have hlimit : ∀ n, b.length? = some n → n ≤ 5 := fun n hn => by cases hunframed.symm.trans hn
  have hskipped : ∀ item, b.Yields item → ∃ e, item = .error e ∧ e.isFatal = false := by
    intro item hitem
    cases hitem with
    | text _ h | garbled h => cases hunframed ▸ h
    | unframed => exact ⟨_, rfl, rfl⟩
  -- the two blocks and the end
  have hall : ∃ e, (readAll 5 ([stream.take 9] ++ [stream.drop 9]).flatten).map (·.1) =
      [.error e, .body "\x7b\x7d", .ended] := by
    have hlimits : ∀ x ∈ [b, Block.ofBody "\x7b\x7d" (by decide)],
        ∀ n, x.length? = some n → n ≤ 5 := by
      intro x hx n hn
      simp only [List.mem_cons, List.not_mem_nil, or_false] at hx
      rcases hx with rfl | rfl
      · exact hlimit n hn
      · cases hn
        decide
    have hnone : ∀ c ∈ ([] : List Char), Text.isBlank c = true := by simp
    obtain ⟨items, hyields, hall⟩ := readAll_of_blocks _ hlimits hnone
    have hstream : [b, Block.ofBody "\x7b\x7d" (by decide)].flatMap Block.bytes ++
        Text.Utf8.encode [] = ([stream.take 9] ++ [stream.drop 9]).flatten := by
      simp [stream, Text.Utf8.encode]
    rw [hstream] at hall
    cases hyields with
    | cons hfirst hyields =>
      cases hyields with
      | cons hsecond hnil =>
        cases hnil
        obtain ⟨e, rfl, -⟩ := hskipped _ hfirst
        rw [Block.yields_ofBody hsecond] at hall
        exact ⟨e, hall⟩
  obtain ⟨e, hall⟩ := hall
  have hend : result = .ok .endOfStream := hread.result_eq (by rw [hall]; simp)
  have hreceive : .receive "\x7b\x7d" ∈ deeds before := hread.receive_mem (by rw [hall]; simp)
  refine ⟨?_, ⟨_, r', hattends, ?_, hend ▸ hresult⟩, by decide, rfl, rfl, rfl,
    hpending q p rfl rfl (.ok .cancelled) rfl (by simp), rfl, hpanic p rfl⟩
  · obtain ⟨item, hitem, hstep⟩ := b.step_nextOf hlimit (Block.ofBody "\x7b\x7d" (by decide)).bytes
    obtain ⟨e, rfl, he⟩ := hskipped item hitem
    have hnext : (nextOf 5 stream).step.next? =
        some (Block.ofBody "\x7b\x7d" (by decide)).bytes := by
      simp [stream, hstep, Item.step, Step.next?, he]
    exact ⟨_, hnext, (hprogress _ _ hnext).2⟩
  · exact List.mem_cons_of_mem _ (List.mem_append_left _ hreceive)

/-- Under a limit of `2 ^ 64 - 1` the same number as a length is a panic: the session does not end
with an error of the transport, and the request that it was to give up stays pending. -/
theorem unheld_body_leaves_pending :
    let limit := 18446744073709551615
    let l : Line := ⟨"Content-Length: 18446744073709551615\r".toList, ⟨'C', by decide, by decide⟩,
      by decide⟩
    let stream := headerBytes [l] emptyLine
    let p : Peer :=
      { codec := ⟨.base, ⟨[]⟩, 1⟩, service := .empty "", pending := [⟨.number 7, "shout", 0⟩] }
    let r : SessionReader :=
      { source := .bytes limit .start stream, ended := true, abandonPending := true }
    ¬ Meets limit OnlyBlank stream ∧ (r.run p).1.result = some (.error bufferPanic) ∧
      (r.run p).2.pending = [⟨.number 7, "shout", 0⟩] := by
  intro limit l stream p r
  have hvalue : l.value? = some " 18446744073709551615\r".toList := by decide
  have hlength : readLength? " 18446744073709551615\r".toList = some limit := by decide
  have hsound : ∀ x ∈ [l], ¬ x.Broken := by
    rintro x hx ⟨value, hx', hnone⟩
    rw [List.mem_singleton.mp hx, hvalue] at hx'
    cases hx'
    cases hlength.symm.trans hnone
  obtain ⟨log, hnext⟩ : ∃ log, next limit true .start stream = ⟨log, .panicked⟩ := by
    obtain ⟨log, hnext⟩ := next_lines emptyLine limit true [] hsound (List.cons_ne_nil _ _)
    have hlast : ([l].filterMap Line.value?).filterMap readLength? = [limit] := by
      rw [List.filterMap_cons_some hvalue, List.filterMap_nil, List.filterMap_cons_some hlength,
        List.filterMap_nil]
    have hpanic : afterHeaders limit true ⟨true, some limit⟩ [] = ⟨[], .panicked⟩ := rfl
    rw [hlast, List.append_nil, List.getLast?_singleton, hpanic] at hnext
    exact ⟨_, hnext⟩
  let q := (Deed.start.apply true p).writeAll log
  have hrun : r.run p =
      { r with started := true, source := .bytes limit .start [] }.finish q
        (.error bufferPanic) := by
    simp [run, isRunning, r, q, pumpBytes, hnext, Deed.apply]
  have hq : q.tables = p.tables := Peer.tables_writeAll _ log
  have hheld : Peer.isHeld { q with inSession := false } = true := by
    have howned : q.owned = true := congrArg Tables.owned hq
    simp [Peer.isHeld, howned]
  refine ⟨?_, by rw [hrun]; rfl, ?_⟩
  · rw [meets_iff_of_last (by rw [nextOf, hnext]; rfl), ← finished_iff, nextOf, hnext]
    simp
  · rw [hrun]
    exact (pending_finish_panic true q hheld).trans (congrArg Tables.pending hq)

end SessionReader
end RpcPeer
