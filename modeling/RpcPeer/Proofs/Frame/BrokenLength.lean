import RpcPeer.Proofs.Frame.Progress

/-! Header blocks with a length that cannot be read. -/
namespace RpcPeer.Frame
open Text.Utf8 (encode)

/-- The length that a value gives: a numeral of what a machine word can hold. -/
def readLength? (value : List Char) : Option Nat :=
  (Text.natural? (Text.trim value)).filter (· < lengthBound)

/-- A line of a header block, whatever it shows. -/
structure Line where
  text : List Char
  visible : ∃ c ∈ text, Text.isBlank c = false
  oneLine : '\n' ∉ text

namespace Line

/-- What a header for the length says behind its colon. -/
def value? (l : Line) : Option (List Char) :=
  match l.text.dropWhile (· != ':') with
  | [] => none
  | _ :: value =>
    if Text.lower (Text.trim (l.text.takeWhile (· != ':'))) = contentLength then some value
    else none

/-- The line is a header for the length, and no length can be read from it. -/
def Broken (l : Line) : Prop := ∃ value, l.value? = some value ∧ readLength? value = none

end Line

/-- The first line of a block that is broken, with what it says and with the lines around it. -/
structure FirstBroken (lines before : List Line) (l : Line) (after : List Line)
    (value : List Char) : Prop where
  split : lines = before ++ l :: after
  sound : ∀ x ∈ before, ¬ x.Broken
  value_eq : l.value? = some value
  unreadable : readLength? value = none

/-- A block of headers without a body, up to the blank line that ends it. -/
def headerBytes (lines : List Line) (separator : BlankLine) : List UInt8 :=
  lines.flatMap (lineBytes ·.text) ++ lineBytes separator.text

/-- The error of a block with this value in a header for the length. -/
def brokenLength (value : List Char) : LinkError :=
  .invalidHeader ("Invalid Content-Length: " ++ String.ofList (Text.trim value))

section
variable {l : Line} {lines : List Line} {text name value : List Char}

theorem Line.value?_of_colon (htext : l.text = name ++ ':' :: value) (hname : ':' ∉ name) :
    l.value? = if Text.lower (Text.trim name) = contentLength then some value else none := by
  have hall : ∀ c ∈ name, (c != ':') = true := by
    intro c hc
    rw [bne_iff_ne]
    rintro rfl
    exact hname hc
  have hdrop : l.text.dropWhile (· != ':') = ':' :: value := by
    rw [htext, List.dropWhile_append_of_pos hall]
    rfl
  have htake : l.text.takeWhile (· != ':') = name := by
    rw [htext, List.takeWhile_append_of_pos hall]
    simp
  rw [value?, hdrop, htake]

theorem Line.value?_of_no_colon (hcolon : ':' ∉ l.text) : l.value? = none := by
  have hdrop : l.text.dropWhile (· != ':') = [] := by
    rw [List.dropWhile_eq_nil_iff]
    intro c hc
    rw [bne_iff_ne]
    rintro rfl
    exact hcolon hc
  rw [value?, hdrop]

theorem Line.value?_eq_some_iff : l.value? = some value ↔
    ∃ name, l.text = name ++ ':' :: value ∧ ':' ∉ name ∧
      Text.lower (Text.trim name) = contentLength := by
  constructor
  · intro h
    by_cases hcolon : ':' ∈ l.text
    · obtain ⟨name, rest, htext, hname⟩ := List.eq_append_cons_of_mem hcolon
      rw [value?_of_colon htext hname] at h
      split at h
      next hlike =>
        cases h
        exact ⟨name, htext, hname, hlike⟩
      next => cases h
    · rw [value?_of_no_colon hcolon] at h
      cases h
  · rintro ⟨name, htext, hname, hlike⟩
    rw [value?_of_colon htext hname, if_pos hlike]

/-- A line that is not broken is one that the reader takes in. -/
theorem Line.exists_headerLine (h : ¬ l.Broken) :
    ∃ header : HeaderLine, header.text = l.text ∧ header.length? = l.value?.bind readLength? := by
  by_cases hcolon : ':' ∈ l.text
  · obtain ⟨name, value, htext, hname⟩ := List.eq_append_cons_of_mem hcolon
    have honeLine : '\n' ∉ name ++ value := by
      have hone := l.oneLine
      rw [htext] at hone
      simp only [List.mem_append, List.mem_cons, not_or] at hone ⊢
      exact ⟨hone.1, hone.2.2⟩
    by_cases hlike : Text.lower (Text.trim name) = contentLength
    · have hvalue := value?_eq_some_iff.mpr ⟨name, htext, hname, hlike⟩
      cases hlength : readLength? value with
      | none => exact absurd ⟨value, hvalue, hlength⟩ h
      | some n =>
        obtain ⟨hnumeral, hsmall⟩ := Option.filter_eq_some_iff.mp hlength
        refine ⟨.length name value n hlike hnumeral (by simpa using hsmall) hname honeLine,
          htext.symm, ?_⟩
        rw [hvalue, Option.bind_some, hlength]
        rfl
    · refine ⟨.other name value hlike hname honeLine, htext.symm, ?_⟩
      rw [value?_of_colon htext hname, if_neg hlike]
      rfl
  · refine ⟨.malformed l.text l.visible hcolon l.oneLine, rfl, ?_⟩
    rw [value?_of_no_colon hcolon]
    rfl

theorem exists_headerLines (h : ∀ l ∈ lines, ¬ l.Broken) :
    ∃ headers : List HeaderLine, headers.map HeaderLine.text = lines.map Line.text ∧
      headers.filterMap HeaderLine.length? =
        (lines.filterMap Line.value?).filterMap readLength? := by
  induction lines with
  | nil => exact ⟨[], rfl, rfl⟩
  | cons l ls ih =>
    obtain ⟨header, htext, hlength⟩ := Line.exists_headerLine (h l List.mem_cons_self)
    obtain ⟨headers, htexts, hlengths⟩ := ih fun x hx => h x (List.mem_cons_of_mem _ hx)
    refine ⟨header :: headers, by rw [List.map_cons, htext, htexts, List.map_cons], ?_⟩
    rw [List.filterMap_filterMap] at hlengths ⊢
    rw [List.filterMap_cons, List.filterMap_cons, hlength, hlengths]

theorem readLine_broken (h : Headers) (hvalue : l.value? = some value)
    (hbroken : readLength? value = none) :
    readLine h (l.text ++ ['\n']) = .failed (brokenLength value) := by
  obtain ⟨name, htext, hname, hlike⟩ := Line.value?_eq_some_iff.mp hvalue
  have heq : ¬ (Text.lower (Text.trim name) != contentLength) = true := by simp [hlike]
  unfold readLength? at hbroken
  rw [htext, readLine_field hname, if_neg heq, hbroken]
  rfl

theorem exists_firstBroken (h : ∃ l ∈ lines, l.Broken) :
    ∃ before l after value, FirstBroken lines before l after value := by
  induction lines with
  | nil => simp at h
  | cons first rest ih =>
    by_cases hfirst : first.Broken
    · obtain ⟨value, hvalue, hbroken⟩ := hfirst
      exact ⟨[], first, rest, value, rfl, by simp, hvalue, hbroken⟩
    · have hrest : ∃ l ∈ rest, l.Broken := by simpa [hfirst] using h
      obtain ⟨before, l, after, value, hl⟩ := ih hrest
      have hsplit : first :: rest = first :: before ++ l :: after :=
        congrArg (first :: ·) hl.split
      have hsound : ∀ x ∈ first :: before, ¬ x.Broken := by simpa [hfirst] using hl.sound
      exact ⟨first :: before, l, after, value, hsplit, hsound, hl.value_eq, hl.unreadable⟩

end

section
variable {l : Line} {before after lines : List Line} {value : List Char} (separator : BlankLine)
  (max : Nat) (ended : Bool) (rest : List UInt8)

theorem readHeaders_headers (h : Headers) (headers : List HeaderLine) :
    ∃ log, readHeaders max ended h (headers.flatMap (lineBytes ·.text) ++ rest) =
      (readHeaders max ended (headers.foldl (fun h l => l.after h) h) rest).after log := by
  induction headers generalizing h with
  | nil => exact ⟨[], (after_nil _).symm⟩
  | cons l ls ih =>
    obtain ⟨log, hl⟩ := readLine_header h l
    obtain ⟨logs, hls⟩ := ih (l.after h)
    refine ⟨log ++ logs, ?_⟩
    rw [List.flatMap_cons, List.append_assoc, readHeaders_lineBytes l.oneLine, hl, List.foldl_cons,
      ← after_after]
    exact congrArg (Attempt.after log) hls

theorem readHeaders_lines (h : Headers) (hlines : ∀ l ∈ lines, ¬ l.Broken) :
    ∃ log, readHeaders max ended h (lines.flatMap (lineBytes ·.text) ++ rest) =
      (readHeaders max ended ⟨h.started || !lines.isEmpty,
        ((lines.filterMap Line.value?).filterMap readLength?).getLast?.or h.length⟩
        rest).after log := by
  obtain ⟨headers, htexts, hlengths⟩ := exists_headerLines hlines
  have hbytes : lines.flatMap (lineBytes ·.text) = headers.flatMap (lineBytes ·.text) := by
    rw [← List.flatMap_map, ← htexts, List.flatMap_map]
  have hempty : lines.isEmpty = headers.isEmpty := by
    have hsame := congrArg List.isEmpty htexts
    rw [List.isEmpty_map, List.isEmpty_map] at hsame
    exact hsame.symm
  have hread := readHeaders_headers max ended rest h headers
  rw [foldl_after] at hread
  rw [hbytes, hempty, ← hlengths]
  exact hread

/-- An attempt takes the headers of a block in, and then it is about the body. -/
theorem next_lines (hlines : ∀ l ∈ lines, ¬ l.Broken) (hne : lines ≠ []) :
    ∃ log, next max ended .start (headerBytes lines separator ++ rest) =
      (afterHeaders max ended
        ⟨true, ((lines.filterMap Line.value?).filterMap readLength?).getLast?⟩ rest).after log := by
  obtain ⟨log, hread⟩ := readHeaders_lines max ended (lineBytes separator.text ++ rest) {} hlines
  refine ⟨log, ?_⟩
  have hstarted : (!lines.isEmpty) = true := by simp [hne]
  simp only [next, Place.start, headerBytes, List.append_assoc]
  rw [hread, readHeaders_lineBytes separator.oneLine, readLine_blank]
  simp [hstarted]

/-- A line that gives no length ends the attempt, and the lines behind it are left. -/
theorem next_broken (h : FirstBroken lines before l after value) :
    ∃ log, next max ended .start (headerBytes lines separator ++ rest) =
      ⟨log, .failed (brokenLength value) (headerBytes after separator ++ rest)⟩ := by
  obtain ⟨log, hread⟩ := readHeaders_lines max ended
    (lineBytes l.text ++ (headerBytes after separator ++ rest)) {} h.sound
  refine ⟨log, ?_⟩
  have hsplit : headerBytes lines separator ++ rest = before.flatMap (lineBytes ·.text) ++
      (lineBytes l.text ++ (headerBytes after separator ++ rest)) := by
    simp [headerBytes, h.split]
  rw [hsplit]
  simp only [next, Place.start]
  rw [hread, readHeaders_lineBytes l.oneLine, readLine_broken _ h.value_eq h.unreadable]
  simp [Attempt.after]

/-- A block that has a line is not passed over. -/
theorem not_finished_lines (hne : lines ≠ []) :
    (nextOf max (headerBytes lines separator ++ rest)).step ≠ .finished := by
  by_cases h : ∃ l ∈ lines, l.Broken
  · obtain ⟨before, l, after, value, hl⟩ := exists_firstBroken h
    obtain ⟨log, hnext⟩ := next_broken separator max true rest hl
    rw [nextOf, hnext]
    simp
  · obtain ⟨log, hnext⟩ := next_lines separator max true rest (by simpa using h) hne
    rw [nextOf, hnext, step_after]
    exact not_finished_afterHeaders

/-- A blank line before a block is passed over. -/
theorem readAll_separator : readAll max (lineBytes separator.text ++ rest) = readAll max rest := by
  have hnext : next max true .start (lineBytes separator.text ++ rest) =
      next max true .start rest := by
    simp only [next, Place.start]
    rw [readHeaders_lineBytes separator.oneLine, readLine_blank]
    rfl
  rw [readAll_eq, readAll_eq, attempts_eq, attempts_eq, attemptsOn, attemptsOn, hnext]

end

/-- The end of a stream is the first thing that is found exactly where no block is left. -/
theorem head?_readAll_iff {max : Nat} {bytes : List UInt8} :
    (readAll max bytes).head?.map (·.1) = some .ended ↔ (nextOf max bytes).step = .finished := by
  rw [readAll_eq, attempts_eq, attemptsOn, ← nextOf]
  rcases nextOf max bytes with ⟨log, step⟩
  cases step with
  | frame | failed | finished => simp [Attempt.followers, Attempt.item?]
  | panicked | waiting => simp [Attempt.followers, Attempt.item?, Step.next?]

section
variable {l : Line} {before after lines : List Line} {value : List Char} {max : Nat}
  {separator : BlankLine}

/-- A fatal error is the last thing that is found. -/
theorem readAll_of_failed {bytes rest : List UInt8} {log : List LogEntry} {e : LinkError}
    (h : nextOf max bytes = ⟨log, .failed e rest⟩) :
    readAll max bytes = (.error e, log) :: if e.isFatal then [] else readAll max rest := by
  have hn : (nextOf max bytes).step.next? = if e.isFatal then none else some rest := by
    rw [h]
    rfl
  cases hfatal : e.isFatal with
  | true =>
    rw [readAll_eq, attempts_of_last (by rw [hn, hfatal]; rfl), h]
    rfl
  | false =>
    rw [readAll_eq, attempts_of_next? (by rw [hn, hfatal]; rfl), h, readAll_eq]
    rfl

/-- A frame that is written by itself. -/
theorem readAll_ofBody {body : String} {h : body.utf8ByteSize < bufferBound}
    (hmax : body.utf8ByteSize ≤ max) :
    (readAll max (Block.ofBody body h).bytes).map (·.1) = [.body body, .ended] := by
  have hlimit : ∀ b ∈ [Block.ofBody body h], ∀ n, b.length? = some n → n ≤ max := by
    intro b hb n hn
    rw [List.mem_singleton.mp hb, Block.length?_ofBody] at hn
    cases hn
    exact hmax
  have hblank : ∀ c ∈ ([] : List Char), Text.isBlank c = true := nofun
  obtain ⟨items, hitems, hread⟩ := readAll_of_blocks _ hlimit hblank
  cases hitems with
  | cons hfirst hnil =>
    cases hnil
    rw [Block.yields_ofBody hfirst] at hread
    simpa [encode] using hread

/-- Without a length a block has no body. -/
theorem readAll_unframed (hvalues : ∀ x ∈ lines, x.value? = none) (hne : lines ≠ [])
    (rest : List UInt8) :
    ∃ log, readAll max (headerBytes lines separator ++ rest) =
      (.error (.invalidHeader "missing Content-Length"), log) :: readAll max rest := by
  have hlines : ∀ x ∈ lines, ¬ x.Broken := by
    rintro x hx ⟨value, hvalue, -⟩
    cases (hvalues x hx).symm.trans hvalue
  obtain ⟨log, hnext⟩ := next_lines separator max true rest hlines hne
  rw [List.filterMap_eq_nil_iff.mpr hvalues] at hnext
  exact ⟨log ++ [], readAll_of_failed hnext⟩

/-- The lines behind a broken one are read as a block that follows it. So the stream behind a block
is read as it is by itself exactly if no header stands between. -/
theorem readAll_behind_iff :
    (∀ rest, readAll max (headerBytes lines separator ++ rest) = readAll max rest) ↔
      lines = [] := by
  constructor
  · intro h
    by_contra hne
    -- at the end of the stream the headers would be passed over
    have hblank : (nextOf max (encode [])).step = .finished := step_nextOf_blank max [] nofun
    have hend := head?_readAll_iff.mpr hblank
    rw [show encode [] = [] from rfl, ← h []] at hend
    exact not_finished_lines separator max [] hne (head?_readAll_iff.mp hend)
  · rintro rfl rest
    exact readAll_separator separator max rest

/-- A block with a length that cannot be read. The first such line gives an error that is not fatal,
and the next attempt reads the lines behind it. Only if there are none the stream behind the block
is read as it is by itself; other headers than a length are one more error. -/
theorem readAll_broken_length (max : Nat) (lines : List Line) (separator : BlankLine)
    (h : ∃ l ∈ lines, l.Broken) :
    ∃ before l after value, FirstBroken lines before l after value ∧
      (brokenLength value).isFatal = false ∧
      (∀ rest, ∃ log,
        nextOf max (headerBytes lines separator ++ rest) =
          ⟨log, .failed (brokenLength value) (headerBytes after separator ++ rest)⟩ ∧
        readAll max (headerBytes lines separator ++ rest) =
          (.error (brokenLength value), log) ::
            readAll max (headerBytes after separator ++ rest)) ∧
      ((∀ rest, readAll max (headerBytes after separator ++ rest) = readAll max rest) ↔
        after = []) ∧
      (after ≠ [] → (∀ x ∈ after, x.value? = none) → ∀ rest, ∃ log,
        readAll max (headerBytes after separator ++ rest) =
          (.error (.invalidHeader "missing Content-Length"), log) :: readAll max rest) := by
  obtain ⟨before, l, after, value, hl⟩ := exists_firstBroken h
  refine ⟨before, l, after, value, hl, rfl, fun rest => ?_, readAll_behind_iff,
    fun hne hvalues rest => readAll_unframed hvalues hne rest⟩
  obtain ⟨log, hnext⟩ := next_broken separator max true rest hl
  exact ⟨log, hnext, readAll_of_failed hnext⟩

/-- A line without a colon, a length in words and another header behind it. -/
theorem readAll_broken_length_header_behind :
    let l : Line := ⟨"Content-Length: two\r".toList, ⟨'C', by decide, by decide⟩, by decide⟩
    let first : Line := ⟨['x'], ⟨'x', by decide, by decide⟩, by decide⟩
    let last : Line := ⟨"Content-Type: y\r".toList, ⟨'C', by decide, by decide⟩, by decide⟩
    (∃ x ∈ [first, l, last], x.Broken) ∧
      ∀ rest, ∃ log log', readAll 9 (headerBytes [first, l, last] emptyLine ++ rest) =
        (.error (brokenLength " two\r".toList), log) ::
          (.error (.invalidHeader "missing Content-Length"), log') :: readAll 9 rest := by
  intro l first last
  have hl : l.value? = some " two\r".toList := by decide
  have hsound : ∀ x ∈ [first, last], x.value? = none := by decide
  have hbroken : ∃ x ∈ [first, l, last], x.Broken := ⟨l, by simp, _, hl, by decide⟩
  refine ⟨hbroken, fun rest => ?_⟩
  obtain ⟨before, x, after, value, hx, -, hread, -, hunframed⟩ :=
    readAll_broken_length 9 [first, l, last] emptyLine hbroken
  rcases before with _ | ⟨b, _ | ⟨b', before⟩⟩
  · obtain ⟨rfl, -⟩ := List.cons.inj hx.split
    cases (hsound first (by simp)).symm.trans hx.value_eq
  · obtain ⟨-, hlines⟩ := List.cons.inj hx.split
    obtain ⟨rfl, rfl⟩ := List.cons.inj hlines
    obtain rfl := Option.some.inj (hl.symm.trans hx.value_eq)
    obtain ⟨log, -, hfirst⟩ := hread rest
    obtain ⟨log', hsecond⟩ := hunframed (by simp) (by simpa using hsound last (by simp)) rest
    exact ⟨log, log', by rw [hfirst, hsecond]⟩
  · obtain ⟨-, hlines⟩ := List.cons.inj hx.split
    obtain ⟨rfl, -⟩ := List.cons.inj hlines
    exact absurd ⟨_, hl, by decide⟩ (hx.sound l (by simp))

/-- A block with a length in words costs two errors if another header stands behind that one: the
frame that follows is not the next thing that is read. -/
theorem broken_length_costs_two :
    let l : Line := ⟨"Content-Length: x\r".toList, ⟨'C', by decide, by decide⟩, by decide⟩
    let other : Line := ⟨"Content-Type: y\r".toList, ⟨'C', by decide, by decide⟩, by decide⟩
    let frame := (Block.ofBody "\x7b\x7d" (by decide)).bytes
    l.Broken ∧ (readAll 9 frame).map (·.1) = [.body "\x7b\x7d", .ended] ∧
      (readAll 9 (headerBytes [l, other] emptyLine ++ frame)).map (·.1) =
        [.error (brokenLength " x\r".toList), .error (.invalidHeader "missing Content-Length"),
          .body "\x7b\x7d", .ended] := by
  intro l other frame
  have hl : l.value? = some " x\r".toList := by decide
  have hnone : readLength? " x\r".toList = none := by decide
  have hframe : (readAll 9 frame).map (·.1) = [.body "\x7b\x7d", .ended] :=
    readAll_ofBody (by decide)
  have hbroken : FirstBroken [l, other] [] l [other] " x\r".toList := ⟨rfl, by simp, hl, hnone⟩
  have hfirst : ∃ log, nextOf 9 (headerBytes [l, other] emptyLine ++ frame) =
      ⟨log, .failed (brokenLength " x\r".toList) (headerBytes [other] emptyLine ++ frame)⟩ :=
    next_broken emptyLine 9 true frame hbroken
  have hsecond : ∃ log, readAll 9 (headerBytes [other] emptyLine ++ frame) =
      (.error (.invalidHeader "missing Content-Length"), log) :: readAll 9 frame :=
    readAll_unframed (by decide) (by simp) frame
  obtain ⟨log, hfirst⟩ := hfirst
  obtain ⟨log', hsecond⟩ := hsecond
  have hread : readAll 9 (headerBytes [l, other] emptyLine ++ frame) =
      (.error (brokenLength " x\r".toList), log) ::
        readAll 9 (headerBytes [other] emptyLine ++ frame) := readAll_of_failed hfirst
  refine ⟨⟨_, hl, hnone⟩, hframe, ?_⟩
  rw [hread, hsecond, List.map_cons, List.map_cons, hframe]

end

end RpcPeer.Frame
