import RpcPeer.Log
import RpcPeer.Message.Basic

/-!
Handlers of local methods. A handler is called with parameters of its type; what it then does until
it is done, it says as an `Activity`: it may wait for its cancellation or for a gate to open.
-/
namespace RpcPeer

/-- Why a handler failed. -/
inductive Fault
  | methodNotFound (name : String)
  | invalidParams (reason : String)
  | cancelled
  | response (e : ResponseError)
  /-- Any other failure: its message, and the failures below it. -/
  | other (message : String) (causes : List String)

namespace Fault

def message : Fault → String
  | methodNotFound name => s!"method not found: {name}"
  | invalidParams reason => s!"invalid params: {reason}"
  | cancelled => "request cancelled"
  | response e => e.display
  | other message _ => message

end Fault

/-- How a call of a handler ends. A panic may carry a text. -/
inductive Verdict (α : Type)
  | value (v : α)
  | fault (f : Fault)
  | panic (text : Option String)

/-- What a call that has been started still does. -/
inductive Activity
  | done (v : Verdict Payload)
  | untilCancelled (next : Activity)
  | untilOpen (gate : String) (next : Activity)

def Activity.resume (cancelled : Bool) (opened : List String) : Activity → Activity
  | done v => done v
  | untilCancelled next =>
    if cancelled then next.resume cancelled opened else untilCancelled next
  | untilOpen gate next =>
    if gate ∈ opened then next.resume cancelled opened else untilOpen gate next

def Activity.waitsFor (gate : String) : Activity → Bool
  | untilOpen g _ => g == gate
  | _ => false

structure RequestHandler where
  params : Shape
  result : Shape
  serve : Datum → Activity

structure NotificationHandler where
  params : Shape
  serve : Datum → Verdict Unit

/-- Turns the failure of a handler into the error of a response. -/
abbrev FaultPolicy := String → Fault → ResponseError × List LogEntry

def panicText (text : Option String) : String := text.getD "unknown panic"

/-- Failures that are not meant for the caller are logged in full and sent as an internal error. -/
def defaultPolicy : FaultPolicy := fun method f =>
  match f with
  | .methodNotFound name => (.ofCode .methodNotFound s!"Unsupported request method: {name}", [])
  | .invalidParams reason => (.ofCode .invalidParams reason, [])
  | .cancelled => (.ofCode .requestCancelled, [])
  | .response e => (e, [])
  | .other message causes =>
    let chain := ": ".intercalate (message :: causes)
    (.ofCode .internalError message,
      [⟨.error, s!"Internal error while handling '{method}': {chain}"⟩])

end RpcPeer
