import RpcPeer.Proofs.Frame.BrokenLength
import RpcPeer.Proofs.Session.Loop

/-! Frames that are longer than the limit, and lengths that no machine word holds. -/
namespace RpcPeer.Frame

/-- What the last header for the length says. -/
def lastValue? (lines : List Line) : Option (List Char) := (lines.filterMap Line.value?).getLast?

section
variable {lines : List Line} {value : List Char} {max n : Nat}

theorem exists_line_of_lastValue? (h : lastValue? lines = some value) :
    ∃ l ∈ lines, l.value? = some value := by
  have hmem : value ∈ lines.filterMap Line.value? := List.mem_of_getLast? h
  obtain ⟨l, hl, hvalue⟩ := List.mem_filterMap.mp hmem
  exact ⟨l, hl, hvalue⟩

/-- The last length that a block gives is the one that its last header for the length gives. -/
theorem getLast?_lengths (hlines : ∀ l ∈ lines, ¬ l.Broken) (hlast : lastValue? lines = some value)
    (hn : Text.natural? (Text.trim value) = some n) :
    ((lines.filterMap Line.value?).filterMap readLength?).getLast? = some n := by
  have hlength : readLength? value = some n := by
    obtain ⟨l, hl, hvalue⟩ := exists_line_of_lastValue? hlast
    cases hread : readLength? value with
    | none => exact absurd ⟨value, hvalue, hread⟩ (hlines l hl)
    | some m =>
      have hm : Text.natural? (Text.trim value) = some m :=
        (Option.filter_eq_some_iff.mp hread).1
      exact hm.symm.trans hn
  obtain ⟨values, hvalues⟩ := List.getLast?_eq_some_iff.mp hlast
  rw [hvalues, List.filterMap_append, List.filterMap_cons, hlength, List.filterMap_nil,
    List.getLast?_concat]

/-- A body that is too long is neither waited for nor skipped. -/
theorem next_oversized (ended : Bool) (separator : BlankLine) (hlines : ∀ l ∈ lines, ¬ l.Broken)
    (hlast : lastValue? lines = some value) (hn : Text.natural? (Text.trim value) = some n)
    (hlarge : max < n) (rest : List UInt8) :
    ∃ log, next max ended .start (headerBytes lines separator ++ rest) =
      ⟨log, .failed (.frameTooLarge n max) rest⟩ := by
  have hne : lines ≠ [] := by
    rintro rfl
    cases hlast
  obtain ⟨log, hnext⟩ := next_lines separator max ended rest hlines hne
  rw [getLast?_lengths hlines hlast hn] at hnext
  refine ⟨log, hnext.trans ?_⟩
  simp [afterHeaders, if_pos hlarge, Attempt.after]

theorem broken_of_lastValue? (hlast : lastValue? lines = some value)
    (hn : Text.natural? (Text.trim value) = some n) (hbound : lengthBound ≤ n) :
    ∃ l ∈ lines, l.Broken := by
  obtain ⟨l, hl, hvalue⟩ := exists_line_of_lastValue? hlast
  have hread : readLength? value = none := by simp [readLength?, hn, hbound]
  exact ⟨l, hl, value, hvalue, hread⟩

end
end Frame

namespace SessionReader
open RpcPeer.Frame

/-- A session that goes on and stands before a frame, with these bytes unread. -/
structure BetweenFrames (r : SessionReader) (max : Nat) (unread : List UInt8) : Prop where
  source : r.source = .bytes max .start unread
  open_ : r.ended = false
  going : r.stopping = false
  running : r.result = none

/-- What a session does first of all. -/
def opening (r : SessionReader) : List Deed := if r.started then [] else [.start]

/-- What a session between frames does with a stream that a fatal error ends. -/
theorem BetweenFrames.attends_fatal {r : SessionReader} {max : Nat} {unread : List UInt8}
    (h : r.BetweenFrames max unread) (pieces : List (List UInt8)) (bytes : List UInt8)
    {log : List LogEntry} {e : LinkError} {rest : List UInt8} (hfatal : e.isFatal = true)
    (hnext : nextOf max (unread ++ (pieces ++ [bytes]).flatten) = ⟨log, .failed e rest⟩) :
    ∃ r', Attends r (pieces ++ [bytes])
        (r.opening ++ (log.map .note ++ [.finish (.error (.transport e))])) r' ∧
      r'.result = some (.error (.transport e)) := by
  have hreads : r.Reads := ⟨⟨max, .start, unread, h.source, Place.sound_start⟩, h.going⟩
  have hdeeds : deeds [⟨log, .failed e rest⟩] =
      log.map .note ++ [.finish (.error (.transport e))] := by
    simp [deeds, Step.deeds, hfatal]
  have hlast : (nextOf max (unread ++ (pieces ++ [bytes]).flatten)).step.next? = none := by
    rw [hnext]
    simp [Step.next?, hfatal]
  have hremaining : r.remaining (pieces ++ [bytes]).flatten =
      r.opening ++ (log.map .note ++ [.finish (.error (.transport e))]) := by
    simp only [remaining, h.running, h.source, Source.deeds]
    rw [← attempts_eq, attempts_of_last hlast, hnext, hdeeds]
    rfl
  have hpast : ∀ x, r.result = some x → ([] : List Deed).getLast? = some (.finish x) := by
    simp [h.running]
  obtain ⟨r', result, hattends, hresult, hend⟩ :=
    exists_attends hreads h.open_ pieces bytes [] hpast
  rw [hremaining] at hattends hend
  -- the result of a session is the one of its last deed
  have hsame : result = .error (.transport e) := by
    rw [List.nil_append, ← List.append_assoc, List.getLast?_concat] at hend
    cases hend
    rfl
  exact ⟨r', hattends, hsame ▸ hresult⟩

/-- A block whose last length is over the limit. If all its lengths can be read, the error is fatal,
nothing behind the block is looked at and the session ends with it, in whatever pieces the stream
comes. If one of them is a word, or a numeral that no machine word holds, the error is the one of
that line; it is not fatal, and the next attempt reads the lines behind it and then what was to be
the body. The last numeral is itself of this kind from `2 ^ 64` on. -/
theorem oversized_block (max : Nat) (lines : List Line) (separator : BlankLine)
    (value : List Char) (n : Nat) (hlast : lastValue? lines = some value)
    (hn : Text.natural? (Text.trim value) = some n) (hlarge : max < n) :
    ((∀ l ∈ lines, ¬ l.Broken) → (LinkError.frameTooLarge n max).isFatal = true ∧
      (∀ ended rest, ∃ log, next max ended .start (headerBytes lines separator ++ rest) =
        ⟨log, .failed (.frameTooLarge n max) rest⟩) ∧
      (∀ rest, ∃ log, readAll max (headerBytes lines separator ++ rest) =
        [(.error (.frameTooLarge n max), log)]) ∧
      (∀ r unread pieces bytes rest, r.BetweenFrames max unread →
        unread ++ (pieces ++ [bytes]).flatten = headerBytes lines separator ++ rest →
        ∃ (log : List LogEntry) (r' : SessionReader), Attends r (pieces ++ [bytes])
            (r.opening ++
              (log.map .note ++ [.finish (.error (.transport (.frameTooLarge n max)))])) r' ∧
          r'.result = some (.error (.transport (.frameTooLarge n max))))) ∧
    ((∃ l ∈ lines, l.Broken) → ∃ before l after value',
      FirstBroken lines before l after value' ∧ (brokenLength value').isFatal = false ∧
      ∀ rest, ∃ log, nextOf max (headerBytes lines separator ++ rest) =
          ⟨log, .failed (brokenLength value') (headerBytes after separator ++ rest)⟩ ∧
        readAll max (headerBytes lines separator ++ rest) =
          (.error (brokenLength value'), log) ::
            readAll max (headerBytes after separator ++ rest)) ∧
    (lengthBound ≤ n → ∃ l ∈ lines, l.Broken) := by
  refine ⟨fun hlines => ?_, fun hbroken => ?_, broken_of_lastValue? hlast hn⟩
  · have hnext (ended : Bool) (rest : List UInt8) :
        ∃ log, next max ended .start (headerBytes lines separator ++ rest) =
          ⟨log, .failed (.frameTooLarge n max) rest⟩ :=
      next_oversized ended separator hlines hlast hn hlarge rest
    have hread (rest : List UInt8) : ∃ log, readAll max (headerBytes lines separator ++ rest) =
        [(.error (.frameTooLarge n max), log)] := by
      obtain ⟨log, hlog⟩ := hnext true rest
      exact ⟨log, readAll_of_failed hlog⟩
    refine ⟨rfl, hnext, hread, fun r unread pieces bytes rest hr hstream => ?_⟩
    obtain ⟨log, hlog⟩ := hnext true rest
    rw [← hstream] at hlog
    obtain ⟨r', hattends, hresult⟩ := hr.attends_fatal pieces bytes rfl hlog
    exact ⟨log, r', hattends, hresult⟩
  · obtain ⟨before, l, after, value', hl⟩ := exists_firstBroken hbroken
    refine ⟨before, l, after, value', hl, rfl, fun rest => ?_⟩
    obtain ⟨log, hnext⟩ := next_broken separator max true rest hl
    exact ⟨log, hnext, readAll_of_failed hnext⟩

/-- A length within the limit, then one above it, and the start of a frame behind the blank line. -/
theorem oversized_block_second_length :
    let small : Line := ⟨"Content-Length: 2\r".toList, ⟨'C', by decide, by decide⟩, by decide⟩
    let large : Line := ⟨"Content-Length: 5\r".toList, ⟨'C', by decide, by decide⟩, by decide⟩
    let stream := headerBytes [small, large] emptyLine ++ lineBytes small.text
    let r : SessionReader := { source := .bytes 4 .start (stream.take 9) }
    lastValue? [small, large] = some " 5\r".toList ∧
      ∃ (log : List LogEntry) (r' : SessionReader),
        Attends r ([(stream.drop 9).take 20] ++ [(stream.drop 9).drop 20])
          (.start :: (log.map .note ++ [.finish (.error (.transport (.frameTooLarge 5 4)))])) r' ∧
        r'.result = some (.error (.transport (.frameTooLarge 5 4))) := by
  intro small large stream r
  have hlast : lastValue? [small, large] = some " 5\r".toList := by decide
  have hsmall : small.value? = some " 2\r".toList := by decide
  have hlarge : large.value? = some " 5\r".toList := by decide
  have hlines : ∀ l ∈ [small, large], ¬ l.Broken := by
    intro l hl
    simp only [List.mem_cons, List.not_mem_nil, or_false] at hl
    rintro ⟨value, hvalue, hnone⟩
    rcases hl with rfl | rfl
    · cases hsmall.symm.trans hvalue
      exact absurd hnone (by decide)
    · cases hlarge.symm.trans hvalue
      exact absurd hnone (by decide)
  have hstream : stream.take 9 ++
      ([(stream.drop 9).take 20] ++ [(stream.drop 9).drop 20]).flatten = stream := by
    rw [List.singleton_append, List.flatten_cons, List.flatten_cons, List.flatten_nil,
      List.append_nil, List.take_append_drop, List.take_append_drop]
  obtain ⟨-, -, -, hsession⟩ :=
    (oversized_block 4 [small, large] emptyLine " 5\r".toList 5 hlast (by decide)
      (by decide)).1 hlines
  have hr : r.BetweenFrames 4 (stream.take 9) := ⟨rfl, rfl, rfl, rfl⟩
  exact ⟨hlast, hsession r _ [(stream.drop 9).take 20] ((stream.drop 9).drop 20) _ hr hstream⟩

/-- With the numeral `2 ^ 64` in its header a block is skipped, and what stands where its body was
to be is read as a frame. -/
theorem oversized_block_skipped :
    let l : Line := ⟨"Content-Length: 18446744073709551616\r".toList, ⟨'C', by decide, by decide⟩,
      by decide⟩
    let value := " 18446744073709551616\r".toList
    let body := (Block.ofBody "\x7b\x7d" (by decide)).bytes
    lastValue? [l] = some value ∧ Text.natural? (Text.trim value) = some 18446744073709551616 ∧
      (brokenLength value).isFatal = false ∧
      (readAll 4 (headerBytes [l] emptyLine ++ body)).map (·.1) =
        [.error (brokenLength value), .body "\x7b\x7d", .ended] := by
  intro l value body
  have hvalue : l.value? = some value := by decide
  have hnone : readLength? value = none := by decide
  refine ⟨by decide, by decide, rfl, ?_⟩
  have hbroken : FirstBroken [l] [] l [] value := ⟨rfl, by simp, hvalue, hnone⟩
  have hnext : ∃ log, nextOf 4 (headerBytes [l] emptyLine ++ body) =
      ⟨log, .failed (brokenLength value) (headerBytes [] emptyLine ++ body)⟩ :=
    next_broken emptyLine 4 true body hbroken
  have hblank : readAll 4 (headerBytes [] emptyLine ++ body) = readAll 4 body :=
    readAll_separator emptyLine 4 body
  have hbody : (readAll 4 body).map (·.1) = [.body "\x7b\x7d", .ended] := readAll_ofBody (by decide)
  obtain ⟨log, hnext⟩ := hnext
  have hread : readAll 4 (headerBytes [l] emptyLine ++ body) =
      (.error (brokenLength value), log) :: readAll 4 (headerBytes [] emptyLine ++ body) :=
    readAll_of_failed hnext
  rw [hread, hblank, List.map_cons, hbody]

end SessionReader
end RpcPeer
