import RpcPeer.Message.Payload

/-! The catalog of methods: what a connection knows of every method that either side serves. -/
namespace RpcPeer

inductive MethodKind
  | request
  | notification
  deriving DecidableEq

/-- A method under its full name. Notifications have no result. -/
structure MethodEntry where
  name : String
  kind : MethodKind
  params : Shape
  result : Option Shape

namespace MethodEntry

def isNotification (m : MethodEntry) : Bool := m.kind == .notification

def withSegment (segment : String) (m : MethodEntry) : MethodEntry :=
  { m with name := segment ++ m.name }

end MethodEntry

/-- A named group of methods. Its segment leads the name of each of them; the methods of its
delegates, which are named here, come under their own segments. -/
structure Group where
  name : String
  segment : String := ""
  methods : List MethodEntry := []
  delegates : List String := []

def Group.entries (g : Group) : List MethodEntry := g.methods.map (·.withSegment g.segment)

structure Catalog where
  entries : List MethodEntry

namespace Catalog

def find? (c : Catalog) (method : String) : Option MethodEntry :=
  c.entries.find? (·.name == method)

def contains (c : Catalog) (method : String) : Bool := (c.find? method).isSome

def sorted (c : Catalog) : List MethodEntry := c.entries.mergeSort fun a b => !(b.name < a.name)

def size (c : Catalog) : Nat := c.entries.length

end Catalog
end RpcPeer
