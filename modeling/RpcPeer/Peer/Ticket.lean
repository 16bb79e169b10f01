import RpcPeer.Message.Basic
import RpcPeer.Text.Fields

/-!
The state that an outgoing request shares with everything derived from it: whether its cancellation
has been sent, which nodes are cancelled, and its reply.
-/
namespace RpcPeer

/-- Why a request gave no value. -/
inductive RequestError
  | response (e : ResponseError)
  | cancelled
  | channelClosed
  | timeout
  | decode (reason : String)

def RequestError.message : RequestError → String
  | .response e => s!"remote returned an error: {e.display}"
  | .cancelled => "request was cancelled"
  | .channelClosed => "connection closed before a response arrived"
  | .timeout => "request timed out"
  | .decode reason => s!"failed to decode result: {reason}"

/-- How an action that is not the peer's own ends. -/
inductive ActionResult
  | done
  | failed (reason : String)
  | panicked

/-- What sends a cancellation. -/
inductive CancelAction
  /-- Writes the cancellation of the request with this id. -/
  | cancelRequest (id : MessageId)
  | custom (result : ActionResult)

inductive Reply
  | waiting
  | arrived (r : Except ResponseError Payload)
  /-- Nobody will send a reply any more. -/
  | lost

def Reply.isWaiting : Reply → Bool
  | waiting => true
  | _ => false

structure Ticket where
  action : Option CancelAction := none
  sent : Bool := false
  completed : Bool := false
  /-- How often the action has run. -/
  runs : Nat := 0
  /-- Nodes of this depth and deeper ones are cancelled. -/
  cancelledFrom : Option Nat := none
  reply : Reply := .waiting
  /-- Somebody still waits for the reply. -/
  awaited : Bool := true

namespace Ticket

instance : Inhabited Ticket := ⟨{}⟩

def isCancelled (t : Ticket) (depth : Nat) : Bool := t.cancelledFrom.any (· ≤ depth)

/-- Cancels the node of a depth and all below it. -/
def cancelFrom (t : Ticket) (depth : Nat) : Ticket :=
  { t with cancelledFrom := some (t.cancelledFrom.elim depth (min depth)) }

/-- The response has arrived or the request is given up: no cancellation is sent any more. -/
def complete (t : Ticket) : Ticket := { t with completed := true, action := none }

def isClaimable (t : Ticket) : Bool := !t.completed && !t.sent

/-- Claims the sending of the cancellation, which takes the action. -/
def claim (t : Ticket) : Ticket :=
  { t with sent := true, action := none, runs := t.runs + (if t.action.isSome then 1 else 0) }

/-- Nobody will reply; a reply that has arrived stays. -/
def lose (t : Ticket) : Ticket := if t.reply.isWaiting then { t with reply := .lost } else t

def display (t : Ticket) : String :=
  Text.fields "CancellationRoot"
    [("sent", toString t.sent), ("completed", toString t.completed),
      ("cancelled", toString (t.isCancelled 0))]

end Ticket
end RpcPeer
