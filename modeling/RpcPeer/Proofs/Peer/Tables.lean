import RpcPeer.Peer.Serving

/-! The tables of a peer: all of its state that decides what it does next. -/
namespace RpcPeer

/-- What a peer knows about requests in both directions, and where its messages go. -/
structure Tables where
  codec : Codec
  outgoing : List Message
  listening : Bool
  tickets : List Ticket
  pending : List PendingRequest
  calls : List Call
  nextKey : Nat
  owned : Bool
  closed : Bool

namespace Tables

def post (t : Tables) (m : Message) : Tables :=
  { t with outgoing := t.outgoing ++ if t.listening then [m] else [] }

def endCall (t : Tables) (key : Nat) : Tables :=
  { t with calls := t.calls.filter (·.key != key) }

def modifyTicket (t : Tables) (u : Nat) (f : Ticket → Ticket) : Tables :=
  { t with tickets := t.tickets.modify u f }

end Tables

namespace Peer

def tables (p : Peer) : Tables where
  codec := p.codec
  outgoing := p.outgoing
  listening := p.listening
  tickets := p.tickets
  pending := p.pending
  calls := p.calls
  nextKey := p.nextKey
  owned := p.owned
  closed := p.closed

/-- A peer at its start, held by its user. -/
structure Fresh (p : Peer) : Prop where
  tickets : p.tickets = []
  pending : p.pending = []
  outgoing : p.outgoing = []
  calls : p.calls = []
  owned : p.owned = true
  live : p.closed = false

@[simp] theorem tables_write (p : Peer) (e : LogEntry) : (p.write e).tables = p.tables := rfl

@[simp] theorem tables_log (p : Peer) (l : Level) (s : String) : (p.log l s).tables = p.tables :=
  rfl

@[simp] theorem tables_writeAll (p : Peer) (es : List LogEntry) :
    (p.writeAll es).tables = p.tables := by
  induction es generalizing p with
  | nil => rfl
  | cons e es ih => exact (ih (p.write e)).trans (tables_write p e)

@[simp] theorem tables_recordEntry (p : Peer) (e : TranscriptEntry) :
    (p.recordEntry e).tables = p.tables := by
  unfold recordEntry
  split <;> rfl

@[simp] theorem tables_traceReceived (p : Peer) (m : Message) :
    (p.traceReceived m).tables = p.tables := by
  unfold traceReceived
  split
  · rfl
  · rw [tables_recordEntry]
    rfl

@[simp] theorem tables_recordInvocation (p : Peer) (i : Option Invocation) :
    (p.recordInvocation i).tables = p.tables := by
  cases i <;> rfl

@[simp] theorem tables_startCall (p : Peer) (c : Call) : (p.startCall c).2.tables = p.tables :=
  tables_recordInvocation p _

@[simp] theorem tables_logVerdict (p : Peer) (method : String) (v : Verdict Unit) :
    (p.logVerdict method v).tables = p.tables := by
  cases v <;> rfl

/-- Posting a message queues it, or else only a log entry is written. -/
theorem tables_post_or_log (p : Peer) (m : Message) (l : Level) (text : LinkError → String) :
    (match p.post m with
      | .ok q => q
      | .error e => p.log l (text e)).tables = p.tables.post m := by
  unfold post Tables.post
  cases h : p.listening with
  | true => simp [tables, wake, h]
  | false => simp [tables, h, log, write, record]

@[simp] theorem tables_send (p : Peer) (m : Message) : (p.send m).tables = p.tables.post m :=
  tables_post_or_log p m _ _

@[simp] theorem tables_respond (p : Peer) (id : MessageId) (method : String) (o : Outcome) :
    (p.respond id method o).tables = p.tables.post (.response (some id) (some method) o) :=
  tables_send p _

@[simp] theorem tables_modifyCall (p : Peer) (key : Nat) (f : Call → Call) :
    (p.modifyCall key f).tables =
      { p.tables with calls := p.calls.map fun c => if c.key == key then f c else c } := rfl

@[simp] theorem tables_cancelCall (p : Peer) (key : Nat) :
    (p.cancelCall key).tables =
      { p.tables with
        calls := p.calls.map fun c => if c.key == key then { c with cancelled := true } else c } :=
  rfl

theorem closeUnheld_of_owned {p : Peer} (h : p.owned = true) : p.closeUnheld = p := by
  simp [closeUnheld, isHeld, h]

theorem tables_dropPending_of_some {p : Peer} {id : MessageId} {r : PendingRequest}
    (h : p.pending.find? (·.id == id) = some r) :
    (p.dropPending id).tables =
      { p.tables with
        pending := p.pending.filter (·.id != id)
        tickets := p.tickets.modify r.ticket Ticket.lose } := by
  simp only [dropPending, h]
  rfl

end Peer
end RpcPeer
