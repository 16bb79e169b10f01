import RpcPeer.Text.Numeral

/-! Durations in words. -/
namespace RpcPeer.Text

/-- A number of milliseconds, in seconds from one second on. -/
def duration (ms : Nat) : String :=
  if ms == 0 then "0ns"
  else if ms < 1000 then s!"{ms}ms"
  else
    let fraction := ((1000 + ms % 1000 |> Nat.toDigits 10).drop 1).reverse.dropWhile (· == '0')
    let whole := ms / 1000
    if fraction.isEmpty then s!"{whole}s" else s!"{whole}.{String.ofList fraction.reverse}s"

end RpcPeer.Text
