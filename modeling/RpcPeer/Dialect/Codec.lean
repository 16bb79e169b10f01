import RpcPeer.Dialect.Base
import RpcPeer.Dialect.Debug
import RpcPeer.Json.Printer

/-!
The codec of a connection: a dialect, the catalog of methods and the counter from which request ids
are drawn. In the debug dialect events and responses draw from it as well.
-/
namespace RpcPeer

structure Codec where
  dialect : Dialect
  catalog : Catalog
  next : Int64 := 1

namespace Codec

def drawId (c : Codec) : MessageId × Codec :=
  let id : MessageId :=
    match c.dialect with
    | .base => .text (toString c.next.toInt)
    | .debug => .number c.next
  (id, { c with next := c.next + 1 })

def resolve (c : Codec) (methods : MethodLookup) (scanned : Envelope × Option ReadError) :
    Decoding :=
  match c.dialect with
  | .base => Base.resolve c.catalog methods scanned.1 scanned.2
  | .debug => Debug.resolve c.catalog methods scanned.1 scanned.2

def decodeText (c : Codec) (methods : MethodLookup) (text : String) : Decoding :=
  c.resolve methods (Envelope.scanText c.dialect text)

def decodeValue (c : Codec) (methods : MethodLookup) (v : Json) : Decoding :=
  c.resolve methods (Envelope.scanValue c.dialect v)

def encode (c : Codec) (m : Message) : Except EncodeError Json × Codec :=
  match c.dialect with
  | .base => (Base.encode m, c)
  | .debug =>
    let (r, next) := Debug.encode c.next m
    (r, { c with next })

def encodeText (c : Codec) (m : Message) : Except EncodeError String × Codec :=
  let (r, c) := c.encode m
  (r.map Json.text, c)

/-- Encodes a message and decodes what was written. -/
def roundTrip (c : Codec) (methods : MethodLookup) (m : Message) :
    Except EncodeError (Json × Decoding) × Codec :=
  let (r, c) := c.encode m
  (r.map fun v => (v, c.decodeValue methods v), c)

end Codec
end RpcPeer
