import RpcPeer.Peer.Serving

/-!
The promises that the user of a peer holds under names. A node stays known after its promise has
been used up, so that it can still be cancelled.
-/
namespace RpcPeer

structure HeldPromises where
  promises : List (String × Promise) := []
  nodes : List (String × Node) := []

namespace HeldPromises

def promise? (h : HeldPromises) (name : String) : Option Promise := h.promises.lookup name

def node? (h : HeldPromises) (name : String) : Option Node := h.nodes.lookup name

def erase (h : HeldPromises) (name : String) : HeldPromises :=
  { h with promises := h.promises.filter (·.1 != name) }

/-- Holds what is left of a promise under its name. -/
def replace (h : HeldPromises) (name : String) (p : Promise) : HeldPromises :=
  { h with promises := (name, p) :: (h.erase name).promises }

def insert (h : HeldPromises) (name : String) (p : Promise) : HeldPromises :=
  { h.replace name p with nodes := (name, p.node) :: h.nodes.filter (·.1 != name) }

def continuations (h : HeldPromises) : Nat := h.promises.countP (·.2.usesPeer)

end HeldPromises

namespace Peer

/-- Polls a held promise; one that is ready is used up. -/
def pollHeld (p : Peer) (h : HeldPromises) (name : String) :
    Option (Poll × Peer × HeldPromises) :=
  (h.promise? name).map fun promise =>
    match p.poll promise with
    | (.pending rest, p) => (.pending rest, p, h.replace name rest)
    | (.ready r, p) => (.ready r, p.discard promise, h.erase name)

/-- Drops a held promise. Tells whether there was one. -/
def dropHeld (p : Peer) (h : HeldPromises) (name : String) : Bool × Peer × HeldPromises :=
  match h.promise? name with
  | none => (false, p, h)
  | some promise => (true, p.discard promise, h.erase name)

/-- Holds a new promise; an earlier one of that name is dropped. -/
def hold (p : Peer) (h : HeldPromises) (name : String) (promise : Promise) : Peer × HeldPromises :=
  let (_, p, h) := p.dropHeld h name
  (p, h.insert name promise)

/-- Uses up a promise for one that is derived from it. -/
def deriveHeld (p : Peer) (h : HeldPromises) (source target : String) (f : Promise → Promise) :
    Option (Peer × HeldPromises) :=
  (h.promise? source).map fun promise => p.hold (h.erase source) target (f promise)

/-- How a promise whose last node is `n` shows itself in log entries. -/
def displayPromise (p : Peer) (n : Node) : String :=
  let root := (p.ticket n.ticket).display
  Text.fields "RequestFuture" [("root", root), ("is_root", toString n.isRoot)]

/-- The peer stays open for the continuations among the promises that are held. -/
def holdFor (p : Peer) (h : HeldPromises) : Peer :=
  closeUnheld { p with continuations := h.continuations }

end Peer
end RpcPeer
