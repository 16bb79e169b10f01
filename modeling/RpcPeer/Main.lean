import RpcPeer.Cli

/-! The program: an echo peer on the standard streams. All it decides is in the command line. -/
namespace RpcPeer.Cli

/-- The time since the start, as hours, minutes and seconds. -/
def uptime (ms : Nat) : String :=
  let two (n : Nat) : String := if n < 10 then s!"0{n}" else toString n
  let seconds := ms / 1000
  s!"{seconds / 3600}:{two (seconds / 60 % 60)}:{two (seconds % 60)}"

def shown (o : Options) (clock : Nat) : Event → String
  | .log e => if o.shows e.level then e.line ++ "\n" else ""
  | .traced e => e.render (uptime clock) toString
  | .invoked _ => ""

def flush (o : Options) (c : Connection) : IO Connection := do
  let (events, peer) := c.peer.takeJournal
  let (chunks, c) := { c with peer }.takeOutput
  for e in events do
    IO.eprint (shown o peer.clock e)
  let out ← IO.getStdout
  for chunk in chunks do
    out.putStr chunk
  out.flush
  return c

/-- Lets the clock of a connection follow the real one. -/
def tick (start : Nat) (c : Connection) : IO Connection := do
  return c.advance ((← IO.monoMsNow) - start - c.peer.clock)

partial def run (o : Options) (start : Nat) (c : Connection) : IO Connection := do
  let c ← flush o c
  if c.sessionResult?.isSome then return c
  let bytes ← (← IO.getStdin).read 4096
  let c ← tick start c
  if bytes.isEmpty then run o start c.endInput.settle
  else run o start (c.feedBytes bytes.toList).settle

def lookupIn (vars : List (String × Option String)) (name : String) : Option String :=
  (vars.lookup name).join

def program (args : List String) : IO UInt32 := do
  let names := [Settings.dialectVariable, Settings.traceVariable, Settings.abandonVariable]
  let vars ← names.mapM fun n => do return (n, ← IO.getEnv n)
  match Cli.start args (lookupIn vars) with
  | .error r =>
    match r with
    | .help => IO.print usage
    | .version => IO.print version
    | .usage => IO.eprint usage
    | .failure .. => IO.eprint (errorText r)
    return (exitCode r).toUInt32
  | .ok (o, c) =>
    let c ← run o (← IO.monoMsNow) c
    let (code, text) := conclude (c.sessionResult?.getD (.ok .endOfStream))
    IO.eprint text
    return code.toUInt32

end RpcPeer.Cli

def main (args : List String) : IO UInt32 := RpcPeer.Cli.program args
