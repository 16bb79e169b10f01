import RpcPeer.Peer.Ticket

/-!
Promised results of outgoing requests. The root of a promise waits for a reply; derived promises
pass its result through stages. Every node can be cancelled for itself.
-/
namespace RpcPeer

/-- What a result is followed by: another result, or another request for it. -/
inductive Continuation
  | ready (r : Except RequestError Payload)
  | request (method : String) (params : Payload)

inductive Stage
  | map (f : Payload → Payload)
  | tryMap (f : Payload → Except RequestError Payload)
  /-- `usesPeer` says that the continuation keeps the peer open until it has run. -/
  | andThen (usesPeer : Bool) (f : Payload → Continuation)
  /-- Gives up after a time, which counts from the first poll. -/
  | timeout (after : Nat) (deadline : Option Nat)

inductive Promise
  /-- Waits for the reply on a ticket. -/
  | reply (ticket : Nat)
  /-- Has failed already. -/
  | failed (ticket : Nat) (e : RequestError)
  | derived (stage : Stage) (upstream : Promise)
  /-- A node whose continuation is another request. -/
  | continued (ticket depth : Nat) (next : Promise)

/-- A node of a promise, which can be cancelled whoever holds the promise. -/
structure Node where
  ticket : Nat
  depth : Nat
  deriving DecidableEq

def Node.isRoot (n : Node) : Bool := n.depth == 0

namespace Promise

def node : Promise → Node
  | reply t | failed t _ => ⟨t, 0⟩
  | derived _ up => ⟨up.node.ticket, up.node.depth + 1⟩
  | continued t d _ => ⟨t, d⟩

def awaits : Promise → List Nat
  | reply t => [t]
  | failed .. => []
  | derived _ up => up.awaits
  | continued _ _ next => next.awaits

def usesPeer : Promise → Bool
  | reply _ | failed .. => false
  | derived (.andThen uses _) up => uses || up.usesPeer
  | derived _ up => up.usesPeer
  | continued _ _ next => next.usesPeer

def map (f : Payload → Payload) (p : Promise) : Promise := derived (.map f) p

def tryMap (f : Payload → Except RequestError Payload) (p : Promise) : Promise :=
  derived (.tryMap f) p

def andThen (usesPeer : Bool) (f : Payload → Continuation) (p : Promise) : Promise :=
  derived (.andThen usesPeer f) p

def withTimeout (ms : Nat) (p : Promise) : Promise := derived (.timeout ms none) p

def decoded (s : Shape) (p : Promise) : Promise :=
  p.tryMap fun q =>
    match q.decode s with
    | .ok d => .ok (s.payload d)
    | .error e => .error (.decode e.message)

end Promise

/-- What a poll finds. -/
inductive Poll
  | pending (rest : Promise)
  | ready (r : Except RequestError Payload)

def Poll.cancelled : Poll := .ready (.error .cancelled)

end RpcPeer
