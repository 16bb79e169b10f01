import RpcPeer.Session.Reader
import RpcPeer.Session.Writer

/-!
A peer with the tasks that run beside it: the calls it serves, a reader, a writer and a watcher that
stops the session once the connection is no longer alive. Tasks go on in the order in which they
became ready.
-/
namespace RpcPeer

/-- Checks at every multiple of a period whether the connection is alive. -/
structure Watcher where
  period : Nat
  nextTick : Nat
  /-- What the check answers. -/
  alive : Bool := true
  done : Bool := false

structure Connection where
  peer : Peer
  reader : Option SessionReader := none
  writer : Option SessionWriter := none
  watcher : Option Watcher := none

namespace Connection

def modifyPeer (c : Connection) (f : Peer → Peer) : Connection := { c with peer := f c.peer }

def runReader (c : Connection) : Connection :=
  match c.reader with
  | none => c
  | some r =>
    let (r, peer) := r.run c.peer
    { c with reader := some r, peer }

def runWriter (c : Connection) : Connection :=
  match c.writer with
  | none => c
  | some w =>
    let (w, peer) := w.run c.peer
    { c with writer := some w, peer }

def stop (c : Connection) : Connection :=
  match c.reader with
  | none => c
  | some r =>
    { c with reader := some { r with stopping := true }, peer := c.peer.wake .reader }

def isStopping (c : Connection) : Bool := c.reader.any (·.stopping)

/-- Has a check failed by now? All ticks up to now see one answer. -/
def runWatcher (c : Connection) : Connection :=
  match c.watcher with
  | none => c
  | some w =>
    if w.done || c.peer.clock < w.nextTick then c
    else if c.isStopping then { c with watcher := some { w with done := true } }
    else if w.alive then
      let ticks := (c.peer.clock - w.nextTick) / w.period + 1
      { c with watcher := some { w with nextTick := w.nextTick + ticks * w.period } }
    else
      { c with watcher := some { w with done := true } }.modifyPeer
        (·.log .warn "Liveness check failed, stopping session") |>.stop

def runJob (c : Connection) : Job → Connection
  | .call key => c.modifyPeer (·.runCall key)
  | .reader => c.runReader
  | .writer => c.runWriter
  | .watcher => c.runWatcher

def settleWithin (c : Connection) : Nat → Connection
  | 0 => c
  | rounds + 1 =>
    match c.peer.ready with
    | [] => c
    | j :: js => (({ c with peer := { c.peer with ready := js } }).runJob j).settleWithin rounds

def unread (c : Connection) : Nat :=
  match c.reader with
  | none => 0
  | some r =>
    match r.source with
    | .texts ts => ts.length
    | .bytes _ _ bs => bs.length

/-- No task makes ready one of its own kind: the watcher the reader, the reader calls and the
writer, calls the writer. So this many jobs are enough. -/
def jobBound (c : Connection) : Nat := 4 * (c.peer.ready.length + c.unread + 2)

def settle (c : Connection) : Connection := c.settleWithin c.jobBound

def advance (c : Connection) (ms : Nat) : Connection :=
  c.modifyPeer fun p =>
    let p := { p with clock := p.clock + ms }
    if c.watcher.isSome then p.wake .watcher else p

def feedTexts (c : Connection) (texts : List String) : Connection :=
  match c.reader with
  | some r =>
    match r.source with
    | .texts unread =>
      { c with
        reader := some { r with source := .texts (unread ++ texts) }
        peer := c.peer.wake .reader }
    | .bytes .. => c
  | none => c

def feedBytes (c : Connection) (bytes : List UInt8) : Connection :=
  match c.reader with
  | some r =>
    match r.source with
    | .bytes max place unread =>
      { c with
        reader := some { r with source := .bytes max place (unread ++ bytes) }
        peer := c.peer.wake .reader }
    | .texts _ => c
  | none => c

def endInput (c : Connection) : Connection :=
  match c.reader with
  | some r => { c with reader := some { r with ended := true }, peer := c.peer.wake .reader }
  | none => c

def closeOutput (c : Connection) : Connection :=
  match c.writer with
  | some w =>
    let sink := { w.sink with room := some 0, fault := "broken pipe" }
    { c with writer := some { w with sink } }
  | none => c.modifyPeer ({ · with listening := false })

def setAlive (c : Connection) (alive : Bool) : Connection :=
  { c with watcher := c.watcher.map ({ · with alive }) }

/-- What has been written, headers and bodies in turn. -/
def output (c : Connection) : List String := (c.writer.map (·.sink.chunks)).getD []

def takeOutput (c : Connection) : List String × Connection :=
  let emptied (w : SessionWriter) : SessionWriter := { w with sink := { w.sink with chunks := [] } }
  (c.output, { c with writer := c.writer.map emptied })

def sessionResult? (c : Connection) : Option (Except SessionError SessionEnd) :=
  c.reader.bind (·.result)

def writerResult? (c : Connection) : Option (Except LinkError Unit) := c.writer.bind (·.result)

def isReading (c : Connection) : Bool := c.reader.any (·.isRunning)

end Connection
end RpcPeer
