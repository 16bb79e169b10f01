import RpcPeer.Peer.Basic
import RpcPeer.Text.Duration

/-!
The outgoing half of a peer: sending requests, cancelling them and polling their promises. A
cancellation is written at most once for a request, and never after its response has arrived.
-/
namespace RpcPeer.Peer

def ticket (p : Peer) (t : Nat) : Ticket := p.tickets.getD t default

def modifyTicket (p : Peer) (t : Nat) (f : Ticket → Ticket) : Peer :=
  { p with tickets := p.tickets.modify t f }

/-- Adds a ticket, which is found under the number of tickets before it. -/
def addTicket (p : Peer) (t : Ticket) : Nat × Peer :=
  (p.tickets.length, { p with tickets := p.tickets ++ [t] })

def isCancelled (p : Peer) (n : Node) : Bool := (p.ticket n.ticket).isCancelled n.depth

def erasePending (p : Peer) (id : MessageId) : Peer :=
  { p with pending := p.pending.filter (·.id != id) }

def addPending (p : Peer) (r : PendingRequest) : Peer :=
  let p := p.erasePending r.id
  { p with pending := p.pending ++ [r] }

/-- Takes a request out of the table, so that no reply can reach it. -/
def dropPending (p : Peer) (id : MessageId) : Peer :=
  match p.pending.find? (·.id == id) with
  | none => p
  | some r => (p.erasePending id).modifyTicket r.ticket Ticket.lose

def request (p : Peer) (method : String) (params : Payload) : Promise × Peer :=
  let (id, codec) := p.codec.drawId
  let (t, p) := addTicket { p with codec } { action := some (.cancelRequest id) }
  let p := p.addPending ⟨id, method, t⟩
  match p.post (.request id method params) with
  | .ok p => (.reply t, p)
  | .error e =>
    let p := p.log .warn s!"Failed to send request '{method}': {e.message}"
    (.reply t, (p.dropPending id).modifyTicket t Ticket.complete)

/-- Sends a value as the parameters of a request and decodes the result. -/
def call (p : Peer) (method : String) (params : Payload) (result : Shape) : Promise × Peer :=
  let (promise, p) := p.request method params
  (promise.decoded result, p)

def notify (p : Peer) (method : String) (params : Payload) : Except LinkError Peer :=
  p.post (.notification method params)

def runAction (p : Peer) : CancelAction → Peer
  | .cancelRequest id =>
    if p.closed then p
    else
      let p := (p.dropPending id).log .debug s!"Cancelling request {id.display}"
      match p.notify Message.cancelMethod (CancelParams.payload ⟨id⟩) with
      | .ok p => p
      | .error e => p.log .warn s!"Failed to send cancellation: {e.message}"
  | .custom .done => p
  | .custom (.failed reason) => p.log .warn s!"Failed to send cancellation: {reason}"
  | .custom .panicked => p.log .error "Cancellation action panicked"

/-- Sends the cancellation of a ticket unless it has been sent or the request is completed. Tells
whether this was the call that sent it. -/
def sendCancel (p : Peer) (t : Nat) : Bool × Peer :=
  let old := p.ticket t
  if !old.isClaimable then (false, p)
  else
    let p := p.modifyTicket t Ticket.claim
    (true, match old.action with
      | none => p
      | some a => p.runAction a)

/-- Cancels a node: it and all nodes derived from it, and the request on the wire. -/
def cancel (p : Peer) (n : Node) : Peer :=
  (p.sendCancel n.ticket).2.modifyTicket n.ticket (·.cancelFrom n.depth)

/-- No cancellation is sent for a ticket any more. -/
def complete (p : Peer) (t : Nat) : Peer := p.modifyTicket t Ticket.complete

/-- Gives a reply to a ticket. Tells whether somebody still waits for it. -/
def deliver (p : Peer) (t : Nat) (r : Except ResponseError Payload) : Bool × Peer :=
  ((p.ticket t).awaited, p.modifyTicket t ({ · with reply := .arrived r }))

def discard (p : Peer) (promise : Promise) : Peer :=
  promise.awaits.foldl (fun p t => p.modifyTicket t ({ · with awaited := false })) p

/-- Gives up all requests that have no response yet. -/
def abandonPending (p : Peer) : Peer :=
  let n := p.pending.length
  let p := if n == 0 then p else p.log .debug s!"Abandoning {n} pending requests"
  p.pending.foldl (fun p r => (p.dropPending r.id).complete r.ticket) p

def replyOf (p : Peer) (t : Nat) : Poll :=
  if p.isCancelled ⟨t, 0⟩ then .cancelled
  else
    match (p.ticket t).reply with
    | .waiting => .pending (.reply t)
    | .arrived (.ok v) => .ready (.ok v)
    | .arrived (.error e) => .ready (.error (.response e))
    | .lost => .ready (.error .channelClosed)

/-- Runs a continuation on a result that has arrived. -/
def followUp (p : Peer) (n : Node) : Continuation → Poll × Peer
  | .ready r => (.ready r, p)
  | .request method params =>
    let (promise, p) := p.request method params
    (match p.replyOf promise.node.ticket with
      | .pending next => .pending (.continued n.ticket n.depth next)
      | .ready r => .ready r, p)

/-- The deadline of a node has passed: the request is cancelled from this node on. -/
def expire (p : Peer) (n : Node) (after : Nat) : Peer :=
  (p.log .debug s!"Request timed out after {Text.duration after}").cancel n

/-- What a stage makes of the poll of its upstream. -/
def pollStage (p : Peer) (n : Node) (started : Nat) : Stage → Poll → Poll × Peer
  | .map f, .ready (.ok v) => (.ready (.ok (f v)), p)
  | .tryMap f, .ready (.ok v) => (.ready (f v), p)
  | .andThen _ f, .ready (.ok v) => p.followUp n (f v)
  | _, .ready r => (.ready r, p)
  | .timeout after deadline, .pending up =>
    let deadline := deadline.getD (started + after)
    if deadline ≤ p.clock then (.ready (.error .timeout), p.expire n after)
    else (.pending (.derived (.timeout after (some deadline)) up), p)
  | stage, .pending up => (.pending (.derived stage up), p)

/-- Polls a promise. A cancelled node is looked at before anything below it. -/
def poll (p : Peer) : Promise → Poll × Peer
  | .reply t => (p.replyOf t, p)
  | .failed _ e => (.ready (.error e), p)
  | .continued t d next =>
    if p.isCancelled ⟨t, d⟩ then (.cancelled, p)
    else
      let (r, p) := p.poll next
      (match r with
        | .pending next => .pending (.continued t d next)
        | .ready r => .ready r, p)
  | .derived stage up =>
    let n := (Promise.derived stage up).node
    if p.isCancelled n then (.cancelled, p)
    else
      let started := p.clock
      let (r, p) := p.poll up
      p.pollStage n started stage r

end RpcPeer.Peer
