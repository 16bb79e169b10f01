/-! Structures and lists in the form in which log entries show them. -/
namespace RpcPeer.Text

def fields (name : String) (fs : List (String × String)) : String :=
  let shown := ", ".intercalate (fs.map fun (k, v) => s!"{k}: {v}")
  s!"{name} \x7b {shown} \x7d"

def listing (items : List String) : String := "[" ++ ", ".intercalate items ++ "]"

end RpcPeer.Text
