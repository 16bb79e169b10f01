import RpcPeer.Service.Handler

/-! Simple handlers, from which small services are put together. -/
namespace RpcPeer

namespace RequestHandler

def echo (s : Shape) : RequestHandler := ⟨s, s, fun d => .done (.value (s.payload d))⟩

def say (params : Shape) (text : String) : RequestHandler :=
  ⟨params, .text, fun _ => .done (.value (Shape.text.payload (.text text)))⟩

def fail (params : Shape) (f : Fault) : RequestHandler :=
  ⟨params, .json, fun _ => .done (.fault f)⟩

def panic (params : Shape) (text : Option String) : RequestHandler :=
  ⟨params, .json, fun _ => .done (.panic text)⟩

def untilCancelled (params : Shape) : RequestHandler :=
  ⟨params, .json, fun _ => .untilCancelled (.done (.fault .cancelled))⟩

/-- Answers with the parameters as a tree once a gate is open. -/
def untilOpen (params : Shape) (gate : Json → String) : RequestHandler :=
  ⟨params, .json, fun d =>
    let v := (params.payload d).tree
    .untilOpen (gate v) (.done (.value (Shape.json.payload (.json v))))⟩

end RequestHandler

namespace NotificationHandler

def ignore (params : Shape) : NotificationHandler := ⟨params, fun _ => .value ()⟩

def fail (params : Shape) (f : Fault) : NotificationHandler := ⟨params, fun _ => .fault f⟩

def panic (params : Shape) (text : Option String) : NotificationHandler :=
  ⟨params, fun _ => .panic text⟩

end NotificationHandler
end RpcPeer
