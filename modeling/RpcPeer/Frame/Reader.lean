import RpcPeer.Frame.Basic

/-!
Reading frames from bytes. A frame is a block of header lines, a blank line and a body whose length
the headers give. Bytes may arrive in pieces: where they run out before the stream has ended the
reader says how far it has come.
-/
namespace RpcPeer.Frame

def lineFeed : UInt8 := 10

/-- The first line, with its line feed, and the bytes after it. -/
def cutLine (bytes : List UInt8) : Option (List UInt8 × List UInt8) :=
  match bytes.dropWhile (· != lineFeed) with
  | [] => none
  | c :: rest => some (bytes.takeWhile (· != lineFeed) ++ [c], rest)

theorem cutLine_length {bytes line rest : List UInt8} (h : cutLine bytes = some (line, rest)) :
    rest.length < bytes.length := by
  have hle := (List.dropWhile_suffix (l := bytes) (· != lineFeed)).length_le
  unfold cutLine at h
  split at h
  · simp at h
  · rename_i c tail heq
    rw [heq] at hle
    simp only [Option.some.injEq, Prod.mk.injEq] at h
    simp only [List.length_cons] at hle
    rw [← h.2]
    omega

/-- What the lines of a header block have said so far. -/
structure Headers where
  /-- A line that is not blank has been read. -/
  started : Bool := false
  /-- The last length that was given. -/
  length : Option Nat := none

/-- Where a reader stands between two pieces of input. -/
inductive Place
  | headers (h : Headers)
  | body (length : Nat)

def Place.start : Place := .headers {}

/-- How an attempt to read a frame ends. -/
inductive Step
  | frame (body : String) (rest : List UInt8)
  | failed (e : LinkError) (rest : List UInt8)
  /-- The stream has ended between two frames. -/
  | finished
  /-- The attempt panics. -/
  | panicked
  /-- More input is needed; these bytes are unread. -/
  | waiting (place : Place) (unread : List UInt8)

structure Attempt where
  log : List LogEntry
  step : Step

def Attempt.after (log : List LogEntry) (a : Attempt) : Attempt := { a with log := log ++ a.log }

/-- What a header line does to the block. -/
inductive LineEffect
  /-- A blank line after the headers. -/
  | done
  | goOn (h : Headers) (log : List LogEntry)
  | failed (e : LinkError)

def contentLength : List Char := "content-length".toList

/-- Numbers of `2 ^ 64` and above are no lengths. -/
def lengthBound : Nat := 18446744073709551616

/-- No buffer has `2 ^ 63` bytes or more. -/
def bufferBound : Nat := 9223372036854775808

/-- Reads one header line. Blank lines before the first header are passed over, a line without a
colon and headers other than the length are ignored. -/
def readLine (h : Headers) (line : List Char) : LineEffect :=
  match Text.trim line with
  | [] => if h.started then .done else .goOn h []
  | line =>
    match line.dropWhile (· != ':') with
    | [] =>
      .goOn { h with started := true }
        [⟨.warn, "Ignoring malformed header line: " ++ String.ofList line⟩]
    | _ :: value =>
      let name := Text.trim (line.takeWhile (· != ':'))
      if Text.lower name != contentLength then .goOn { h with started := true } []
      else
        let value := Text.trim value
        match (Text.natural? value).filter (· < lengthBound) with
        | some n => .goOn { started := true, length := some n } []
        | none => .failed (.invalidHeader ("Invalid Content-Length: " ++ String.ofList value))

def readBody (ended : Bool) (length : Nat) (bytes : List UInt8) : Attempt where
  log := []
  step :=
    if bytes.length < length then
      if ended then .failed (.io "early eof") [] else .waiting (.body length) bytes
    else
      match Text.Utf8.decode (bytes.take length) with
      | .ok cs => .frame (String.ofList cs) (bytes.drop length)
      | .error _ => .failed .invalidUtf8 (bytes.drop length)

/-- Goes on to the body, once the headers are complete. The buffer for a whole body is asked for
before anything is read into it; to ask for more than any buffer holds is a panic. -/
def afterHeaders (max : Nat) (ended : Bool) (h : Headers) (bytes : List UInt8) : Attempt :=
  match h.length with
  | none => ⟨[], .failed (.invalidHeader "missing Content-Length") bytes⟩
  | some n =>
    if max < n then ⟨[], .failed (.frameTooLarge n max) bytes⟩
    else if n < bufferBound then readBody ended n bytes
    else ⟨[], .panicked⟩

/-- The end of a stream inside or before a header block. -/
def atEnd (h : Headers) : Attempt :=
  if h.started then ⟨[], .failed (.io "EOF inside header block") []⟩
  else ⟨[⟨.debug, "EOF reached, no more frames"⟩], .finished⟩

/-- Reads header lines, the last of which may lack its line feed where the stream ends. -/
def readHeaders (max : Nat) (ended : Bool) (h : Headers) (bytes : List UInt8) : Attempt :=
  match hcut : cutLine bytes with
  | none =>
    if !ended then ⟨[], .waiting (.headers h) bytes⟩
    else if bytes.isEmpty then atEnd h
    else
      match Text.Utf8.decode bytes with
      | .error e => ⟨[], .failed (.io e.message) []⟩
      | .ok line =>
        match readLine h line with
        | .done => afterHeaders max ended h []
        | .goOn h log => (atEnd h).after log
        | .failed e => ⟨[], .failed e []⟩
  | some (line, rest) =>
    match Text.Utf8.decode line with
    | .error e => ⟨[], .failed (.io e.message) rest⟩
    | .ok line =>
      match readLine h line with
      | .done => afterHeaders max ended h rest
      | .goOn h log =>
        have := cutLine_length hcut
        (readHeaders max ended h rest).after log
      | .failed e => ⟨[], .failed e rest⟩
termination_by bytes.length

def next (max : Nat) (ended : Bool) (place : Place) (bytes : List UInt8) : Attempt :=
  match place with
  | .headers h => readHeaders max ended h bytes
  | .body n => readBody ended n bytes

/-- Reads one frame from the last bytes of a stream. -/
def nextOf (max : Nat) (bytes : List UInt8) : Attempt := next max true .start bytes

/-- What one attempt yields to the reader's user. -/
inductive Item
  | body (text : String)
  | error (e : LinkError)
  | ended

/-- All that a stream yields up to its end, the first fatal error or a panic, each with its log. A
panic yields nothing. -/
def readAllWithin (max : Nat) : Nat → List UInt8 → List (Item × List LogEntry)
  | 0, _ => []
  | rounds + 1, bytes =>
    let a := nextOf max bytes
    match a.step with
    | .frame text rest => (.body text, a.log) :: readAllWithin max rounds rest
    | .failed e rest =>
      (.error e, a.log) :: (if e.isFatal then [] else readAllWithin max rounds rest)
    | .finished => [(.ended, a.log)]
    | .panicked | .waiting .. => []

def readAll (max : Nat) (bytes : List UInt8) : List (Item × List LogEntry) :=
  readAllWithin max (bytes.length + 1) bytes

end RpcPeer.Frame
