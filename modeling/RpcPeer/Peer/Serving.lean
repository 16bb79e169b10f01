import RpcPeer.Peer.Requests

/-!
The incoming half of a peer. Notifications are handled before the next message, requests are served
as calls that run beside the peer, responses complete the requests that wait for them.
-/
namespace RpcPeer.Peer

def modifyCall (p : Peer) (key : Nat) (f : Call → Call) : Peer :=
  { p with calls := p.calls.map fun c => if c.key == key then f c else c }

def removeCall (p : Peer) (key : Nat) : Peer :=
  { p with calls := p.calls.filter (·.key != key) }

def respond (p : Peer) (id : MessageId) (method : String) (outcome : Outcome) : Peer :=
  p.send (.response (some id) (some method) outcome)

/-- Nobody holds the peer any more: waiting requests are lost and the outgoing queue ends. -/
def close (p : Peer) : Peer :=
  let p := p.pending.foldl (fun p r => p.dropPending r.id) p
  { p with closed := true }.wake .writer

def isHeld (p : Peer) : Bool :=
  p.owned || p.inSession || !p.calls.isEmpty || p.continuations != 0

def closeUnheld (p : Peer) : Peer := if p.isHeld || p.closed then p else p.close

def release (p : Peer) : Peer := closeUnheld { p with owned := false }

/-- Cancels a call; it goes on to notice. -/
def cancelCall (p : Peer) (key : Nat) : Peer :=
  (p.modifyCall key ({ · with cancelled := true })).wake (.call key)

/-- The other side cancels the request with this id. -/
def cancelServed (p : Peer) (id : MessageId) : Peer :=
  match p.calls.find? (·.id == id) with
  | some c => (p.log .debug s!"Remote cancelled request {id.display}").cancelCall c.key
  | none => p.log .debug s!"Cancellation for unknown or finished request {id.display}"

def cancelAllCalls (p : Peer) : Peer := p.calls.foldl (fun p c => p.cancelCall c.key) p

/-- Opens a gate for good; the calls that wait for it go on in the order of their arrival. -/
def openGate (p : Peer) (gate : String) : Peer :=
  let waiting := p.calls.filter fun c => c.activity.any (·.waitsFor gate)
  waiting.foldl (fun p c => p.wake (.call c.key)) { p with opened := gate :: p.opened }

def dropCall (p : Peer) (c : Call) : Peer :=
  ((p.removeCall c.key).log .debug
    s!"Request {c.id.display} '{c.method}' was cancelled, no response sent").closeUnheld

/-- Ends a call with the error that its failure becomes. -/
def failCall (p : Peer) (c : Call) (f : Fault) : Peer :=
  let (e, log) := p.policy c.method f
  (((p.removeCall c.key).writeAll log).respond c.id c.method (.error e)).closeUnheld

def settle (p : Peer) (c : Call) : Verdict Payload → Peer
  | .value v => ((p.removeCall c.key).respond c.id c.method (.result v)).closeUnheld
  | .fault .cancelled => p.dropCall c
  | .fault f => p.failCall c f
  | .panic text => p.failCall c (.other s!"handler panicked: {panicText text}" [])

def recordInvocation (p : Peer) : Option Invocation → Peer
  | none => p
  | some i => p.record (.invoked i)

def startCall (p : Peer) (c : Call) : Activity × Peer :=
  let (invocation, activity) := p.service.callRequest c.method c.params
  (activity, p.recordInvocation invocation)

/-- Lets a call go on. A cancelled one ends here, even before its handler is called. -/
def runCall (p : Peer) (key : Nat) : Peer :=
  match p.calls.find? (·.key == key) with
  | none => p
  | some c =>
    if c.cancelled then p.dropCall c
    else
      let (activity, p) := match c.activity with
        | some a => (a, p)
        | none => p.startCall c
      match activity.resume false p.opened with
      | .done v => p.settle c v
      | waiting => p.modifyCall key ({ · with activity := some waiting })

/-- Handles a notification that is not for the service, if it is one. The reserved method cancels a
call; a method that starts with `$/` may be unknown. -/
def handleOwnNotification? (p : Peer) (method : String) (params : Payload) : Option Peer :=
  if method == Message.cancelMethod then
    some (match CancelParams.decode params with
      | .ok id => p.cancelServed id
      | .error e => p.log .warn s!"Ignoring malformed cancellation: {e.message}")
  else if p.codec.catalog.contains method then none
  else if ['$', '/'].isPrefixOf method.toList then
    some (p.log .debug s!"Ignoring optional notification '{method}'")
  else some (p.log .warn s!"Unsupported notification method: {method}")

/-- What a notification handler has come to goes to the log at most. -/
def logVerdict (p : Peer) (method : String) : Verdict Unit → Peer
  | .value () => p
  | .fault f => p.log .warn s!"Notification handler for '{method}' failed: {f.message}"
  | .panic text => p.log .error s!"Notification handler for '{method}' panicked: {panicText text}"

def handleNotification (p : Peer) (method : String) (params : Payload) : Peer :=
  match p.handleOwnNotification? method params with
  | some p => p
  | none =>
    let (invocation, verdict) := p.service.callNotification method params
    (p.recordInvocation invocation).logVerdict method verdict

/-- Accepts a request as a call, unless its method is unknown or its id is being served. -/
def handleRequest (p : Peer) (id : MessageId) (method : String) (params : Payload) : Peer :=
  if !p.codec.catalog.contains method then
    let text := s!"Unsupported request method: {method}"
    (p.log .warn text).respond id method (.error (.ofCode .methodNotFound text))
  else if p.calls.any (·.id == id) then
    p.respond id method
      (.error (.ofCode .invalidRequest s!"Request id {id.display} is already in use"))
  else
    let key := p.nextKey
    let call : Call := ⟨key, id, method, params, false, none⟩
    { p with calls := p.calls ++ [call], nextKey := key + 1 }.wake (.call key)

/-- Completes the request that a response answers. -/
def handleResponse (p : Peer) (id : Option MessageId) (outcome : Outcome) : Peer :=
  match id with
  | none =>
    match outcome with
    | .error e => p.log .error s!"Remote reported an error without request id: {e.display}"
    | .result _ => p.log .warn "Ignoring response without id"
  | some id =>
    match p.pending.find? (·.id == id) with
    | none => p.log .warn s!"Unmatched response message: {id.display}"
    | some r =>
      let p := (p.erasePending id).complete r.ticket
      let reply := match outcome with
        | .result v => .ok v
        | .error e => .error e
      let (awaited, p) := p.deliver r.ticket reply
      if awaited then p
      else p.log .debug s!"Caller of '{r.method}' ({id.display}) is no longer waiting"

def consume (p : Peer) : Message → Peer
  | .request id method params => p.handleRequest id method params
  | .notification method params => p.handleNotification method params
  | .response id _ outcome => p.handleResponse id outcome

/-- Answers a message that could not be decoded, if it can be answered. -/
def handleIssue (p : Peer) (i : Issue) : Peer :=
  match i.id, i.method with
  | some id, some method =>
    (p.log .warn s!"Rejecting request {id.display} '{method}': {i.message}").respond id method
      (.error i.responseError)
  | _, _ => p.log .error s!"Dropping malformed message: {i.message}"

def receive (p : Peer) : Except Issue Message → Peer
  | .ok m => p.consume m
  | .error i => p.handleIssue i

/-- Decodes a text, which the transcript shows, and takes in what it holds. -/
def receiveText (p : Peer) (text : String) : Peer :=
  let d := p.codec.decodeText p.methodOf? text
  let p := p.writeAll d.log
  match d.result with
  | .ok m => (p.traceReceived m).receive (.ok m)
  | .error i => p.receive (.error i)

end RpcPeer.Peer
