import RpcPeer.Service.Simple
import RpcPeer.Session.Launch

/-!
The command line: an echo peer on the standard streams. It serves the requests `echo` and `ping` and
the notification `log`, in the dialect that the environment or an option names.
-/
namespace RpcPeer.Cli

structure Options where
  dialect : Option String := none
  logLevel : Option String := none
  trace : Bool := false

/-- How a run ends before it has started. -/
inductive Refusal
  /-- The arguments are wrong. -/
  | usage
  | help
  | version
  /-- A failure, with the failures below it. -/
  | failure (message : String) (causes : List String)

/-- The text of a failure that lies below another; further lines are indented alike. -/
def indented (first rest text : String) : String :=
  first ++ s!"\n{rest}".intercalate (text.splitOn "\n")

/-- A failure with its causes, which are numbered if there are several. -/
def report (message : String) (causes : List String) : String :=
  let below := match causes with
    | [] => ""
    | [c] => "\n\nCaused by:\n" ++ indented "    " "    " c
    | cs =>
      "\n\nCaused by:\n" ++ "\n".intercalate
        (cs.zipIdx.map fun ((c, n) : String × Nat) => indented s!"    {n}: " "       " c)
  s!"Error: {message}{below}\n"

def exitCode : Refusal → Nat
  | .usage => 2
  | .help | .version => 0
  | .failure .. => 1

def errorText : Refusal → String
  | .failure message causes => report message causes
  | _ => ""

def logLevels : List String := ["off", "error", "warn", "info", "debug", "trace"]

/-- The place of a level among the names of levels. -/
def rank : Level → Nat
  | .error => 1
  | .warn => 2
  | .info => 3
  | .debug => 4

/-- Is an entry of this level shown? If nothing is said, all but debug entries are. -/
def Options.shows (o : Options) (l : Level) : Bool :=
  rank l ≤ logLevels.idxOf (o.logLevel.getD "info")

def usage : String :=
  "Usage: duplex-rpc [OPTIONS]\n\nOptions:\n" ++
    "  -d, --dialect <DIALECT>      base (jsonrpc, lsp) or debug (dap)\n" ++
    "      --log-level <LOG_LEVEL>  off, error, warn, info, debug or trace [default: info]\n" ++
    "      --trace                  write every message to the error stream\n" ++
    "  -h, --help                   print help\n" ++
    "  -V, --version                print the version\n"

def version : String := "duplex-rpc 0.1.0\n"

/-- Sets an option that takes a value; none may be given twice. -/
def setValue (o : Options) (name value : String) : Except Refusal Options :=
  if name == "dialect" then
    if o.dialect.isSome then .error .usage else .ok { o with dialect := some value }
  else
    let level := String.ofList (Text.lower value.toList)
    if o.logLevel.isSome || level ∉ logLevels then .error .usage
    else .ok { o with logLevel := some level }

def setTrace (o : Options) : Except Refusal Options :=
  if o.trace then .error .usage else .ok { o with trace := true }

/-- May an argument stand for the value of the option before it? -/
def isValue (arg : String) : Bool :=
  match arg.toList with
  | ['-'] => true
  | '-' :: _ => false
  | _ => true

/-- An option in its long form, or in its short form with the value attached. -/
inductive Word
  | needsValue (name : String)
  | withValue (name value : String)
  | trace
  | help
  | version
  /-- Nothing after it is an option. -/
  | rest
  | unknown

def isPrefixOf (lead arg : String) : Bool := lead.toList.isPrefixOf arg.toList

def after (lead arg : String) : String := String.ofList (arg.toList.drop lead.length)

def classify (arg : String) : Word :=
  if arg == "--" then .rest
  else if arg == "--trace" then .trace
  else if arg == "--help" || isPrefixOf "-h" arg then .help
  else if arg == "--version" || isPrefixOf "-V" arg then .version
  else if arg == "--dialect" || arg == "-d" then .needsValue "dialect"
  else if arg == "--log-level" then .needsValue "log-level"
  else if isPrefixOf "--dialect=" arg then .withValue "dialect" (after "--dialect=" arg)
  else if isPrefixOf "--log-level=" arg then .withValue "log-level" (after "--log-level=" arg)
  else if isPrefixOf "-d=" arg then .withValue "dialect" (after "-d=" arg)
  else if isPrefixOf "-d" arg then .withValue "dialect" (after "-d" arg)
  else .unknown

def parseArgs (o : Options) : List String → Except Refusal Options
  | [] => .ok o
  | arg :: args =>
    match classify arg with
    | .help => .error .help
    | .version => .error .version
    | .unknown => .error .usage
    | .rest => if args.isEmpty then .ok o else .error .usage
    | .trace => do parseArgs (← setTrace o) args
    | .withValue name value => do parseArgs (← setValue o name value) args
    | .needsValue name =>
      match args with
      | [] => .error .usage
      | value :: args =>
        if isValue value then do parseArgs (← setValue o name value) args else .error .usage

def echoService : Service :=
  (Service.empty "echo").onRequest "echo" (.echo .json)
    |>.onRequest "ping" (.say .json "pong")
    |>.onNotification "log" (.ignore .json)

/-- The settings of a run: the environment, changed by the options. -/
def settings (o : Options) (environment : String → Option String) : Except Refusal Settings := do
  let s ← match Settings.ofEnvironment environment with
    | .ok (s, _) => pure s
    | .error e =>
      throw (.failure "Failed to read configuration from environment" [e.message])
  let s ← match o.dialect with
    | none => pure s
    | some name =>
      match Dialect.ofName? name with
      | some d => pure { s with dialect := d }
      | none => throw (.failure s!"Unknown dialect '{name}'" [])
  return { s with traceMessages := s.traceMessages || o.trace }

/-- A connection that is ready to read, and the options it was started with. -/
def start (args : List String) (environment : String → Option String) :
    Except Refusal (Options × Connection) := do
  let o ← parseArgs {} args
  let s ← settings o environment
  match ({ settings := s, localSide := some (.ofService echoService) } : LaunchPlan).launch with
  | .ok c => return (o, c.settle)
  | .error e => throw (.failure (launchFailure e) [])

def causes : SessionError → List String
  | .transport (.io reason) => [(LinkError.io reason).message, reason]
  | .transport e => [e.message]
  | .panicked reason => [panicReport reason]

/-- How a run ends whose session has ended: the exit code and what goes to the error stream. -/
def conclude (result : Except SessionError SessionEnd) : Nat × String :=
  match result with
  | .ok _ => (0, "")
  | .error e => (1, report (sessionFailure e) (causes e))

end RpcPeer.Cli
