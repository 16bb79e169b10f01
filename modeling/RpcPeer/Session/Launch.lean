import RpcPeer.Catalog.Build
import RpcPeer.Session.Connection
import RpcPeer.Settings

/-! Putting a connection together from services, groups and settings. -/
namespace RpcPeer

/-- What this side serves: a handler, the groups that describe it and the one that is exposed. -/
structure LocalSide where
  service : Service
  groups : List Group
  exposed : String

namespace LocalSide

/-- A service with all services that it delegates to. -/
def ofService (s : Service) : LocalSide := ⟨s, s.groups, s.name⟩

/-- A handler whose methods a single group describes. -/
def ofGroup (s : Service) (g : Group) : LocalSide := ⟨s, [g], g.name⟩

def default : LocalSide := ofService (.empty "local")

end LocalSide

structure LaunchPlan where
  settings : Settings := {}
  localSide : Option LocalSide := none
  /-- Groups besides those of the local side. -/
  groups : List Group := []
  /-- The names of the groups that the other side serves. -/
  remote : List String := []
  policy : FaultPolicy := defaultPolicy
  /-- Writes a transcript whatever the settings say. -/
  traced : Bool := false
  /-- The period of the check for liveness. -/
  liveness : Option Nat := none
  maxFrame : Nat := Frame.defaultMax

namespace LaunchPlan

def localPart (l : LaunchPlan) : LocalSide := l.localSide.getD LocalSide.default

def draft (l : LaunchPlan) : CatalogDraft where
  groups := l.localPart.groups ++ l.groups
  localRoots := [l.localPart.exposed]
  remoteRoots := l.remote

def peer (l : LaunchPlan) : Except CatalogError Peer := do
  let (catalog, entry) ← l.draft.build
  let peer : Peer :=
    { codec := { dialect := l.settings.dialect, catalog }
      service := l.localPart.service
      policy := l.policy }
  return peer.write entry

def sessionPeer (l : LaunchPlan) : Except CatalogError Peer := do
  return { ← l.peer with
    transcript := if l.traced || l.settings.traceMessages then some {} else none
    inSession := true }

/-- A session over texts, whose outgoing messages its user takes. -/
def overTexts (l : LaunchPlan) : Except CatalogError Connection := do
  return {
    peer := (← l.sessionPeer).wake .reader
    reader := some { source := .texts [], abandonPending := l.settings.abandonPending } }

def launch (l : LaunchPlan) : Except CatalogError Connection := do
  let peer ← l.sessionPeer
  let size := peer.codec.catalog.size
  let peer := peer.log .debug s!"Built {l.settings.dialect.display} launcher with {size} methods"
  let peer := (peer.wake .writer).wake .reader
  return {
    peer := if l.liveness.isSome then peer.wake .watcher else peer
    reader := some
      { source := .bytes l.maxFrame .start [], abandonPending := l.settings.abandonPending }
    writer := some {}
    watcher := l.liveness.map fun period => { period, nextTick := period } }

end LaunchPlan

def launchFailure (e : CatalogError) : String := s!"invalid service interface: {e.message}"

end RpcPeer
