import RpcPeer.Dialect.Codec
import RpcPeer.Frame.Basic
import RpcPeer.Peer.Promise
import RpcPeer.Service.Basic
import RpcPeer.Transcript

/-!
One side of a connection. A peer sends requests and matches the responses, and it serves the
requests of the other side. All that happens is put into its journal in order.
-/
namespace RpcPeer

/-- A task that can go on. -/
inductive Job
  | call (key : Nat)
  | reader
  | writer
  | watcher
  deriving DecidableEq

inductive Event
  | log (e : LogEntry)
  | invoked (i : Invocation)
  | traced (e : TranscriptEntry)

/-- An outgoing request without a response. -/
structure PendingRequest where
  id : MessageId
  method : String
  ticket : Nat

/-- A request of the other side that is being served. The activity is missing until the handler has
been called. -/
structure Call where
  key : Nat
  id : MessageId
  method : String
  params : Payload
  cancelled : Bool := false
  activity : Option Activity := none

structure Peer where
  codec : Codec
  service : Service
  policy : FaultPolicy := defaultPolicy
  /-- Time in milliseconds. -/
  clock : Nat := 0
  /-- Messages that nobody has taken yet, the oldest first. -/
  outgoing : List Message := []
  /-- Somebody takes outgoing messages. -/
  listening : Bool := true
  tickets : List Ticket := []
  pending : List PendingRequest := []
  calls : List Call := []
  nextKey : Nat := 0
  /-- The gates that are open. -/
  opened : List String := []
  transcript : Option Transcript := none
  /-- Why entries of the transcript cannot be written. -/
  transcriptFault : Option String := none
  ready : List Job := []
  journal : List Event := []
  /-- Held by its user. -/
  owned : Bool := true
  /-- Held by a session. -/
  inSession : Bool := false
  /-- Continuations of promises that hold it. -/
  continuations : Nat := 0
  /-- Nobody holds the peer any more. -/
  closed : Bool := false

namespace Peer

def record (p : Peer) (e : Event) : Peer := { p with journal := p.journal ++ [e] }

def takeJournal (p : Peer) : List Event × Peer := (p.journal, { p with journal := [] })

def write (p : Peer) (e : LogEntry) : Peer := p.record (.log e)

def log (p : Peer) (level : Level) (text : String) : Peer := p.write ⟨level, text⟩

def writeAll (p : Peer) (es : List LogEntry) : Peer := es.foldl write p

def wake (p : Peer) (j : Job) : Peer := { p with ready := p.ready ++ [j] }

/-- Hands a message to whoever takes outgoing messages. -/
def post (p : Peer) (m : Message) : Except LinkError Peer :=
  if p.listening then .ok ({ p with outgoing := p.outgoing ++ [m] }.wake .writer)
  else .error .closed

/-- Sends a message that nobody waits for; a failure is logged. -/
def send (p : Peer) (m : Message) : Peer :=
  match p.post m with
  | .ok p => p
  | .error e => p.log .warn s!"Failed to send message: {e.message}"

/-- Takes the outgoing messages, the oldest first, each with its text. -/
def takeOutgoing (p : Peer) : List (Message × Except EncodeError String) × Peer :=
  let (taken, codec) := p.outgoing.foldl (fun (taken, (codec : Codec)) m =>
    let (r, codec) := codec.encodeText m
    (taken ++ [(m, r)], codec)) ([], p.codec)
  (taken, { p with outgoing := [], codec })

/-- The method of a request that waits for its response. -/
def methodOf? (p : Peer) (id : MessageId) : Option String :=
  (p.pending.find? (·.id == id)).map (·.method)

def pendingCount (p : Peer) : Nat := p.pending.length

def inFlightCount (p : Peer) : Nat := p.calls.length

def display (p : Peer) : String :=
  Text.fields "RemoteEndpoint"
    [("dialect", p.codec.dialect.display), ("pending", toString p.pendingCount),
      ("in_flight", toString p.inFlightCount)]

def recordEntry (p : Peer) (e : TranscriptEntry) : Peer :=
  match p.transcriptFault with
  | none => p.record (.traced e)
  | some reason => p.log .warn s!"Failed to write message trace: {reason}"

def traceSent (p : Peer) (m : Message) : Peer :=
  match p.transcript with
  | none => p
  | some t =>
    let (t, e) := t.onSent p.clock m
    { p with transcript := some t }.recordEntry e

def traceReceived (p : Peer) (m : Message) : Peer :=
  match p.transcript with
  | none => p
  | some t =>
    let (t, e) := t.onReceived p.clock m
    { p with transcript := some t }.recordEntry e

end Peer
end RpcPeer
