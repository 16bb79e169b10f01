/-! Log entries. -/
namespace RpcPeer

inductive Level
  | error
  | warn
  | info
  | debug
  deriving DecidableEq

def Level.name : Level → String
  | .error => "ERROR"
  | .warn => "WARN"
  | .info => "INFO"
  | .debug => "DEBUG"

structure LogEntry where
  level : Level
  text : String
  deriving DecidableEq

def LogEntry.line (e : LogEntry) : String := s!"{e.level.name} {e.text}"

end RpcPeer
