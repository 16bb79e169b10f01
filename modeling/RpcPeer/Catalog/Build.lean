import RpcPeer.Catalog.Basic
import RpcPeer.Log

/-!
Building a catalog from groups. The groups that are reachable from the roots are walked depth first;
every full name may be registered once.
-/
namespace RpcPeer

inductive CatalogError
  | duplicateMethod (method first second : String)
  | duplicateGroup (name : String)
  | unknownGroup (name : String)
  /-- The names along the cycle; the first is also the last. -/
  | delegationCycle (names : List String)
  deriving DecidableEq

def CatalogError.message : CatalogError → String
  | .duplicateMethod method first second =>
    s!"duplicate RPC method '{method}' (registered by '{first}' and '{second}')"
  | .duplicateGroup name => s!"service group '{name}' is defined twice"
  | .unknownGroup name => s!"service group '{name}' is not defined"
  | .delegationCycle names => "delegation cycle: " ++ " -> ".intercalate names

/-- Groups, in the order in which they were added, and the groups that each side exposes. -/
structure CatalogDraft where
  groups : List Group := []
  localRoots : List String := []
  remoteRoots : List String := []

/-- What a walk has collected: the groups that are done and the methods with their groups. -/
structure Collected where
  done : List String := []
  methods : List (MethodEntry × String) := []

namespace Collected

def owner? (c : Collected) (method : String) : Option String :=
  (c.methods.find? (·.1.name == method)).map (·.2)

def register (group : String) (c : Collected) (m : MethodEntry) : Except CatalogError Collected :=
  match c.owner? m.name with
  | some first => .error (.duplicateMethod m.name first group)
  | none => .ok { c with methods := c.methods ++ [(m, group)] }

end Collected

/-- The first name that stands in a list for the second time. -/
def firstRepeated? (seen : List String) : List String → Option String
  | [] => none
  | n :: ns => if n ∈ seen then some n else firstRepeated? (n :: seen) ns

namespace CatalogDraft

def find? (d : CatalogDraft) (name : String) : Option Group := d.groups.find? (·.name == name)

/-- How many groups a walk along `path` can still enter. -/
def unentered (d : CatalogDraft) (path : List String) : Nat :=
  d.groups.countP fun g => !path.contains g.name

theorem unentered_lt {d : CatalogDraft} {path : List String} {name : String} {g : Group}
    (hpath : name ∉ path) (hg : d.find? name = some g) :
    d.unentered (path ++ [name]) < d.unentered path := by
  have hmem : g ∈ d.groups := List.mem_of_find?_eq_some hg
  have hname : g.name = name := by simpa using List.find?_some hg
  unfold unentered
  have hle : ∀ l : List Group,
      l.countP (fun g => !(path ++ [name]).contains g.name) ≤
        l.countP (fun g => !path.contains g.name) := by
    intro l
    apply List.countP_mono_left
    intro x _ hx
    simp only [Bool.not_eq_true', List.contains_eq_mem, decide_eq_false_iff_not,
      List.mem_append, not_or] at hx ⊢
    exact hx.1
  obtain ⟨before, after, hsplit⟩ := List.append_of_mem hmem
  rw [hsplit, List.countP_append, List.countP_append, List.countP_cons, List.countP_cons]
  have hin : (!(path ++ [name]).contains g.name) = false := by simp [hname]
  have hout : (!path.contains g.name) = true := by simp [hname, hpath]
  have h1 := hle before
  have h2 := hle after
  simp only [hin, hout]
  simp only [Bool.false_eq_true, if_false, if_true]
  omega

mutual
/-- Walks the group `name`, which was reached along `path`. -/
def visit (d : CatalogDraft) (path : List String) (name : String) (c : Collected) :
    Except CatalogError Collected :=
  if hpath : name ∈ path then
    .error (.delegationCycle (path.dropWhile (· != name) ++ [name]))
  else if name ∈ c.done then .ok c
  else
    match hg : d.find? name with
    | none => .error (.unknownGroup name)
    | some g => do
      let c ← g.entries.foldlM (Collected.register name) c
      have := unentered_lt hpath hg
      let c ← visitAll d (path ++ [name]) g.delegates c
      return { c with done := name :: c.done }
termination_by (d.unentered path, 0)

def visitAll (d : CatalogDraft) (path : List String) (names : List String) (c : Collected) :
    Except CatalogError Collected :=
  match names with
  | [] => .ok c
  | n :: ns => do visitAll d path ns (← visit d path n c)
termination_by (d.unentered path, names.length + 1)
end

def collect (d : CatalogDraft) : Except CatalogError Collected :=
  match firstRepeated? [] (d.groups.map (·.name)) with
  | some name => .error (.duplicateGroup name)
  | none => d.visitAll [] (d.localRoots ++ d.remoteRoots) {}

def build (d : CatalogDraft) : Except CatalogError (Catalog × LogEntry) := do
  let c ← d.collect
  let entries := c.methods.map (·.1)
  let groups := c.done.length
  return (⟨entries⟩,
    ⟨.debug, s!"Built method registry with {entries.length} methods from {groups} groups"⟩)

end CatalogDraft
end RpcPeer
