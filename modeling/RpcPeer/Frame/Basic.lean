import RpcPeer.Dialect.Basic
import RpcPeer.Text.Utf8

/-! Failures of the byte streams under a connection, and the form in which a frame is written. -/
namespace RpcPeer

/-- What went wrong on a stream. -/
inductive LinkError
  | closed
  | io (reason : String)
  | invalidHeader (reason : String)
  | frameTooLarge (length max : Nat)
  | invalidUtf8
  | encode (e : EncodeError)

namespace LinkError

def message : LinkError → String
  | closed => "transport closed"
  | io reason => s!"I/O error: {reason}"
  | invalidHeader reason => s!"invalid header: {reason}"
  | frameTooLarge length max => s!"frame of {length} bytes exceeds the {max} byte limit"
  | invalidUtf8 => "message body is not valid UTF-8"
  | encode e => e.message

/-- A fatal error ends the session, any other loses one frame. The body of a frame that is too long
is not skipped, so that error is fatal as well. -/
def isFatal : LinkError → Bool
  | closed | io _ | frameTooLarge .. => true
  | invalidHeader _ | invalidUtf8 | encode _ => false

end LinkError

namespace Frame

/-- The longest body that is accepted if nothing else is said. -/
def defaultMax : Nat := 64 * 1024 * 1024

def header (body : String) : String := s!"Content-Length: {body.utf8ByteSize}\r\n\r\n"

def render (body : String) : String := header body ++ body

end Frame
end RpcPeer
