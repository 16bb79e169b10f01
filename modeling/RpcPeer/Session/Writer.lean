import RpcPeer.Peer.Serving

/-!
The writing task of a session: it encodes the outgoing messages one by one and writes a frame for
each. A response that cannot be encoded is replaced by an error response with the same id.
-/
namespace RpcPeer

/-- Where frames are written, with the room that is left if it is limited. -/
structure Sink where
  /-- What has been written, the oldest first. -/
  chunks : List String := []
  room : Option Nat := none
  /-- Why writes beyond the room fail. -/
  fault : String := ""

namespace Sink

def text (s : Sink) : String := String.join s.chunks

def write (s : Sink) (chunk : String) : Except LinkError Sink :=
  match s.room with
  | none => .ok { s with chunks := s.chunks ++ [chunk] }
  | some room =>
    if room < chunk.utf8ByteSize then .error (.io s.fault)
    else .ok { s with chunks := s.chunks ++ [chunk], room := some (room - chunk.utf8ByteSize) }

/-- Writes a frame, the header and the body one after the other. What was written before a failure
stays written. -/
def writeFrame (s : Sink) (body : String) : Sink × Except LinkError Unit :=
  match s.write (Frame.header body) with
  | .error e => (s, .error e)
  | .ok s =>
    match s.write body with
    | .error e => (s, .error e)
    | .ok s => (s, .ok ())

def writeFrames (s : Sink) : List String → Sink × Except LinkError Unit
  | [] => (s, .ok ())
  | body :: bodies =>
    match s.writeFrame body with
    | (s, .error e) => (s, .error e)
    | (s, .ok ()) => s.writeFrames bodies

end Sink

/-- The response that takes the place of one that cannot be encoded. -/
def Message.fallback? (e : EncodeError) : Message → Option Message
  | .response id method _ =>
    some (.response id method
      (.error (.ofCode .internalError s!"Failed to encode response: {e.message}")))
  | _ => none

namespace Peer

/-- Encodes an outgoing message, or what is sent in its place. -/
def encodeOutgoing (p : Peer) (m : Message) : Option (Message × String) × Peer :=
  let (r, codec) := p.codec.encodeText m
  let p := { p with codec }
  match r with
  | .ok text => (some (m, text), p)
  | .error e =>
    let p := p.log .error s!"Failed to encode outgoing message: {e.message}"
    match m.fallback? e with
    | none => (none, p)
    | some m =>
      let (r, codec) := p.codec.encodeText m
      let p := { p with codec }
      match r with
      | .ok text => (some (m, text), p)
      | .error e => (none, p.log .error s!"Failed to encode error response: {e.message}")

def writeMessage (p : Peer) (s : Sink) (m : Message) : (Sink × Except LinkError Unit) × Peer :=
  match p.encodeOutgoing m with
  | (none, p) => ((s, .ok ()), p)
  | (some (m, text), p) => (s.writeFrame text, p.traceSent m)

def writeMessages (p : Peer) (s : Sink) : List Message → (Sink × Except LinkError Unit) × Peer
  | [] => ((s, .ok ()), p)
  | m :: ms =>
    match p.writeMessage s m with
    | ((s, .error e), p) => ((s, .error e), p)
    | ((s, .ok ()), p) => p.writeMessages s ms

end Peer

structure SessionWriter where
  sink : Sink := {}
  result : Option (Except LinkError Unit) := none

namespace SessionWriter

/-- Writes all that is queued. The task ends with the queue, or with the first failure, after which
nobody takes messages any more. -/
def run (w : SessionWriter) (p : Peer) : SessionWriter × Peer :=
  if w.result.isSome then (w, p)
  else
    let ((sink, r), p) := writeAll p
    match r with
    | .error e =>
      ({ sink, result := some (.error e) }, { p with listening := false })
    | .ok () =>
      if p.closed then
        ({ sink, result := some (.ok ()) },
          p.log .debug "Outgoing channel closed, terminating write loop")
      else ({ w with sink }, p)
where
  writeAll (p : Peer) : (Sink × Except LinkError Unit) × Peer :=
    Peer.writeMessages { p with outgoing := [] } w.sink p.outgoing

end SessionWriter
end RpcPeer
