import RpcPeer.Catalog.Basic
import RpcPeer.Service.Handler

/-!
Local services: handlers under the methods of a group, and further services that it delegates to.
-/
namespace RpcPeer

/-- A service. Its group describes every registration; of several handlers for one name the last
serves. -/
inductive Service
  | mk (group : Group) (requests : List (String × RequestHandler))
      (notifications : List (String × NotificationHandler)) (delegates : List Service)

/-- A call that has reached a handler, with the parameters it was given. -/
structure Invocation where
  kind : MethodKind
  service : String
  method : String
  params : Payload

namespace Service

def group : Service → Group
  | mk g _ _ _ => g

def requests : Service → List (String × RequestHandler)
  | mk _ rs _ _ => rs

def notifications : Service → List (String × NotificationHandler)
  | mk _ _ ns _ => ns

def delegates : Service → List Service
  | mk _ _ _ ds => ds

def name (s : Service) : String := s.group.name

def empty (name : String) (segment : String := "") : Service :=
  mk { name, segment } [] [] []

/-- Serves requests; a handler that is registered later comes first. -/
def onRequest (method : String) (h : RequestHandler) : Service → Service
  | mk g rs ns ds =>
    mk { g with methods := g.methods ++ [⟨method, .request, h.params, some h.result⟩] }
      ((method, h) :: rs) ns ds

def onNotification (method : String) (h : NotificationHandler) : Service → Service
  | mk g rs ns ds =>
    mk { g with methods := g.methods ++ [⟨method, .notification, h.params, none⟩] }
      rs ((method, h) :: ns) ds

/-- Serves the methods of another service under its own segment. -/
def delegate (s d : Service) : Service :=
  match s with
  | mk g rs ns ds => mk { g with delegates := g.delegates ++ [d.name] } rs ns (ds ++ [d])

mutual
/-- The group of a service, followed by those of its delegates. -/
def groups : Service → List Group
  | mk g _ _ ds => g :: delegateGroups ds

def delegateGroups : List Service → List Group
  | [] => []
  | d :: ds => d.groups ++ delegateGroups ds
end

def afterSegment? (segment method : String) : Option String :=
  if segment.toList.isPrefixOf method.toList then
    some (String.ofList (method.toList.drop segment.toList.length))
  else none

/-- A handler that was found, with its service and the name it is registered under. -/
structure Route (η : Type) where
  service : String
  method : String
  handler : η

/-- Looks for a method among the handlers of a group. -/
def Route.find? (method : String) (g : Group) (handlers : List (String × η)) :
    Option (Route η) := do
  let name ← afterSegment? g.segment method
  return ⟨g.name, name, ← handlers.lookup name⟩

mutual
/-- What `look` finds first: in this service, or else in the first delegate in which it finds
something. -/
def findFirst (look : Service → Option β) : Service → Option β
  | mk g rs ns ds =>
    match look (mk g rs ns ds) with
    | some x => some x
    | none => findFirstIn look ds

def findFirstIn (look : Service → Option β) : List Service → Option β
  | [] => none
  | d :: ds =>
    match findFirst look d with
    | some x => some x
    | none => findFirstIn look ds
end

def findRequest (s : Service) (method : String) : Option (Route RequestHandler) :=
  s.findFirst fun t => Route.find? method t.group t.requests

def findNotification (s : Service) (method : String) : Option (Route NotificationHandler) :=
  s.findFirst fun t => Route.find? method t.group t.notifications

/-- Starts a request: the invocation, unless it failed before, and what remains to be done. -/
def callRequest (s : Service) (method : String) (params : Payload) :
    Option Invocation × Activity :=
  match s.findRequest method with
  | none => (none, .done (.fault (.methodNotFound method)))
  | some r =>
    match params.decode r.handler.params with
    | .error e => (none, .done (.fault (.invalidParams e.message)))
    | .ok d =>
      (some ⟨.request, r.service, r.method, r.handler.params.payload d⟩, r.handler.serve d)

/-- Handles a notification, which runs to its end at once. -/
def callNotification (s : Service) (method : String) (params : Payload) :
    Option Invocation × Verdict Unit :=
  match s.findNotification method with
  | none => (none, .fault (.methodNotFound method))
  | some r =>
    match params.decode r.handler.params with
    | .error e => (none, .fault (.invalidParams e.message))
    | .ok d =>
      (some ⟨.notification, r.service, r.method, r.handler.params.payload d⟩, r.handler.serve d)

end Service
end RpcPeer
