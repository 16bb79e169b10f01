import RpcPeer.Frame.Reader
import RpcPeer.Peer.Serving
import RpcPeer.Text.Quoted

/-!
The reading task of a session: it takes frames from their source and hands each to the peer, until
the source ends, a fatal error comes or the session is stopped.
-/
namespace RpcPeer

/-- Where frames come from. -/
inductive Source
  /-- Texts that have been taken apart already. -/
  | texts (unread : List String)
  /-- Bytes with header blocks. -/
  | bytes (max : Nat) (place : Frame.Place) (unread : List UInt8)

/-- How a session ends without an error. -/
inductive SessionEnd
  | endOfStream
  | cancelled
  deriving DecidableEq

def SessionEnd.display : SessionEnd → String
  | .endOfStream => "EndOfStream"
  | .cancelled => "Cancelled"

/-- How a session fails. -/
inductive SessionError
  | transport (e : LinkError)
  /-- Its task has panicked. -/
  | panicked (reason : String)

/-- More has been asked for than a buffer holds. -/
def bufferPanic : SessionError := .panicked "capacity overflow"

/-- What the runtime says of a task that has panicked, but for the number of the task. -/
def panicReport (reason : String) : String := s!"task panicked with message {Text.quoted reason}"

def sessionFailure : SessionError → String
  | .transport e => s!"transport failed: {e.message}"
  | .panicked reason => s!"session task failed: {panicReport reason}"

structure SessionReader where
  source : Source
  /-- No input will be added to the source. -/
  ended : Bool := false
  /-- The session has been told to stop. -/
  stopping : Bool := false
  /-- Requests without a response are given up when the session ends. -/
  abandonPending : Bool := false
  started : Bool := false
  result : Option (Except SessionError SessionEnd) := none

namespace SessionReader

def isRunning (r : SessionReader) : Bool := r.result.isNone

def giveUp (r : SessionReader) (p : Peer) : Peer :=
  if r.abandonPending then p.abandonPending else p

/-- A task that has panicked tells nothing any more and gives nothing up. -/
def finish (r : SessionReader) (p : Peer) (result : Except SessionError SessionEnd) :
    SessionReader × Peer :=
  let p := match result with
    | .ok e => r.giveUp (p.log .debug s!"Session ended: {e.display}")
    | .error (.transport e) =>
      r.giveUp (p.log .error s!"Session failed: {sessionFailure (.transport e)}")
    | .error (.panicked _) => p
  ({ r with result := some result }, Peer.closeUnheld { p with inSession := false })

def pumpTexts (r : SessionReader) (p : Peer) (texts : List String) : SessionReader × Peer :=
  let p := texts.foldl Peer.receiveText p
  let r := { r with source := .texts [] }
  if r.ended then r.finish p (.ok .endOfStream) else (r, p)

/-- Reads frames as far as the bytes go. Every frame takes a byte at least. -/
def pumpBytes (r : SessionReader) (p : Peer) (max : Nat) :
    Nat → Frame.Place → List UInt8 → SessionReader × Peer
  | 0, place, bytes => ({ r with source := .bytes max place bytes }, p)
  | rounds + 1, place, bytes =>
    let a := Frame.next max r.ended place bytes
    let p := p.writeAll a.log
    match a.step with
    | .frame text rest => pumpBytes r (p.receiveText text) max rounds .start rest
    | .failed e rest =>
      if e.isFatal then { r with source := .bytes max .start rest }.finish p (.error (.transport e))
      else
        let p := p.log .warn s!"Skipping unreadable frame: {e.message}"
        pumpBytes r p max rounds .start rest
    | .finished => { r with source := .bytes max .start [] }.finish p (.ok .endOfStream)
    | .panicked => { r with source := .bytes max .start [] }.finish p (.error bufferPanic)
    | .waiting place unread => ({ r with source := .bytes max place unread }, p)

/-- Lets the session go on. A stop comes before any input that is there. -/
def run (r : SessionReader) (p : Peer) : SessionReader × Peer :=
  if !r.isRunning then (r, p)
  else
    let p := if r.started then p
      else p.log .debug s!"Session started ({p.codec.dialect.display} dialect)"
    let r := { r with started := true }
    if r.stopping then r.finish p (.ok .cancelled)
    else
      match r.source with
      | .texts texts => r.pumpTexts p texts
      | .bytes max place bytes => r.pumpBytes p max (bytes.length + 1) place bytes

end SessionReader
end RpcPeer
