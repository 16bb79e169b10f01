import RpcPeer.Service.Basic
import RpcPeer.Text.Fields
import RpcPeer.Text.Quoted

/-! How services and their groups show themselves in log entries. -/
namespace RpcPeer

def MethodKind.display : MethodKind → String
  | .request => "Request"
  | .notification => "Notification"

def Shape.display (s : Shape) : String := s!"Shape({Text.quoted s.typeName})"

def MethodEntry.display (m : MethodEntry) : String :=
  let result := match m.result with
    | none => "None"
    | some s => s!"Some({s.display})"
  Text.fields "MethodDescriptor"
    [("name", Text.quoted m.name), ("kind", m.kind.display), ("params", m.params.display),
      ("result", result)]

def Group.display (g : Group) : String :=
  Text.fields "ServiceGroup"
    [("name", Text.quoted g.name), ("segment", Text.quoted g.segment),
      ("methods", Text.listing (g.methods.map MethodEntry.display)),
      ("delegates", Text.listing (g.delegates.map Text.quoted))]

namespace Service

mutual
def display : Service → String
  | mk g _ _ ds =>
    Text.fields "LocalService"
      [("group", g.display), ("delegates", Text.listing (displayAll ds))]

def displayAll : List Service → List String
  | [] => []
  | d :: ds => d.display :: displayAll ds
end

end Service
end RpcPeer
