import RpcPeer.Json.Printer
import RpcPeer.Message.Basic

/-!
A transcript of the messages of a connection for its user. Responses are matched with the requests
that were seen before, so that the method and the time that passed can be told.
-/
namespace RpcPeer

/-- The start of a request that has no response yet. -/
structure Started where
  id : MessageId
  method : String
  since : Nat

/-- One entry; `elapsed` is the time between a request and its response. -/
structure TranscriptEntry where
  /-- The words up to the time that passed, if it is told. -/
  lead : String
  elapsed : Option Nat := none
  rest : String := ""

/-- The text of an entry, with the blank lines after it. -/
def TranscriptEntry.render (e : TranscriptEntry) (stamp : String) (elapsed : Nat → String) :
    String :=
  let time := e.elapsed.elim "" elapsed
  s!"[Trace - {stamp}] {e.lead}{time}{e.rest}\n\n"

/-- The two tables of requests without a response. -/
structure Transcript where
  sent : List Started := []
  received : List Started := []

namespace Transcript

def remember (table : List Started) (id : MessageId) (method : String) (now : Nat) : List Started :=
  ⟨id, method, now⟩ :: table.filter (·.id != id)

def forget (table : List Started) (id : MessageId) : List Started := table.filter (·.id != id)

def find? (table : List Started) (id : MessageId) : Option Started := table.find? (·.id == id)

/-- A request that is cancelled may never see a response. -/
def forgetCancelled (table : List Started) (method : String) (params : Payload) : List Started :=
  if method != Message.cancelMethod then table
  else
    match CancelParams.decode params with
    | .ok id => forget table id
    | .error _ => table

def titled (title : String) (p : Payload) : String :=
  match p.toJson with
  | .ok (some v) => s!"{title}: {v.prettyText}\n"
  | .ok none => "No parameters provided.\n"
  | .error e => s!"{title}: <unserializable: {e.message}>\n"

def outcome (o : Outcome) : String :=
  match o with
  | .result p =>
    match p.toJson with
    | .ok (some _) => titled "Result" p
    | _ => "No response returned.\n"
  | .error e => s!"Error: {e.toJson.prettyText}\n"

def idText (id : Option MessageId) : String := id.elim "?" MessageId.display

def onSent (t : Transcript) (now : Nat) (m : Message) : Transcript × TranscriptEntry :=
  match m with
  | .request id method params =>
    let params := titled "Params" params
    ({ t with sent := remember t.sent id method now },
      { lead := s!"Sending request '{method} - ({id.display})'.\n{params}" })
  | .notification method params =>
    let shown := titled "Params" params
    ({ t with sent := forgetCancelled t.sent method params },
      { lead := s!"Sending notification '{method}'.\n{shown}" })
  | .response id method o =>
    let shown := idText id
    let report := outcome o
    match id.bind (find? t.received) with
    | some s =>
      ({ t with received := forget t.received s.id },
        { lead := s!"Sending response '{s.method} - ({shown})'. Processing request took "
          elapsed := some (now - s.since)
          rest := s!"ms\n{report}" })
    | none =>
      let name := method.getD "unknown"
      (t, { lead := s!"Sending response '{name} - ({shown})'.\n{report}" })

def onReceived (t : Transcript) (now : Nat) (m : Message) : Transcript × TranscriptEntry :=
  match m with
  | .request id method params =>
    let params := titled "Params" params
    ({ t with received := remember t.received id method now },
      { lead := s!"Received request '{method} - ({id.display})'.\n{params}" })
  | .notification method params =>
    let shown := titled "Params" params
    ({ t with received := forgetCancelled t.received method params },
      { lead := s!"Received notification '{method}'.\n{shown}" })
  | .response id _ o =>
    let shown := idText id
    let report := outcome o
    match id.bind (find? t.sent) with
    | some s =>
      ({ t with sent := forget t.sent s.id },
        { lead := s!"Received response '{s.method} - ({shown})' in "
          elapsed := some (now - s.since)
          rest := s!"ms.\n{report}" })
    | none => (t, { lead := s!"Received response '{shown}' for an unknown request.\n{report}" })

def display : String := "MessageTracer \x7b .. \x7d"

end Transcript
end RpcPeer
