import RpcPeer.Proofs.Dialect.Agreement
import RpcPeer.Proofs.Dialect.Payloads
import RpcPeer.Proofs.Json.RoundTrip

/-! From the members that a message is written with to what is decoded. -/
namespace RpcPeer
open Json Steps

namespace Envelope
variable {dialect : Dialect} {e : Envelope} {key : String} {v : Json} {ms : List (String × Json)}

theorem scanTree_slot {slot : Slot} {d : Datum} (hk : Slot.ofKey? dialect key = some slot)
    (hv : slot.shape.decode v = .ok d) :
    scanTree dialect e ((key, v) :: ms) = scanTree dialect (e.fill slot d) ms := by
  rw [scanTree_cons, absorb_slot hk, hv]
  rfl

theorem scanTree_field (hk : Slot.ofKey? dialect key = none) :
    scanTree dialect e ((key, v) :: ms) = scanTree dialect (e.addField key v) ms := by
  rw [scanTree_cons, absorb_field hk]

theorem scanTree_memberOf (hk : Slot.ofKey? dialect key = none) (j : Option Json) :
    scanTree dialect e (Payload.memberOf key j) =
      (e.withFields (e.fields ++ Payload.memberOf key j), none) := by
  unfold Payload.memberOf
  cases present j with
  | none =>
    change (e, none) = (e.withFields (e.fields ++ []), none)
    rw [List.append_nil]
    rfl
  | some v => exact scanTree_field hk

end Envelope

theorem Payload.names_memberOf (name : String) (j : Option Json) :
    (memberOf name j).map (·.1) = [] ∨ (memberOf name j).map (·.1) = [name] := by
  unfold memberOf
  cases present j with
  | none => exact .inl rfl
  | some v => exact .inr rfl

namespace Codec
variable {c : Codec} {methods : MethodLookup}

/-- A written object is decoded as its tree is. -/
theorem decodeText_text {ms : List (String × Json)} (h : Plain maxDepth (obj ms)) :
    c.decodeText methods (obj ms).text = c.decodeValue methods (obj ms) := by
  rw [decodeText_of_parseMembers (parseMembers_text h)]
  rfl

/-- The order in which the members come does not count. -/
theorem resolve_scanTree_perm {ms ns : List (String × Json)} {e : Envelope}
    (hd : Envelope.Distinct c.dialect ms) (hp : ms.Perm ns)
    (hs : Envelope.scanTree c.dialect { inObject := true } ms = (e, none)) :
    c.resolve methods (Envelope.scanTree c.dialect { inObject := true } ns) =
      c.resolve methods (e, none) := by
  rcases Envelope.scanTree_perm hd.apart hp { inObject := true } with
    ⟨f, hms, hns⟩ | ⟨f, g, x, y, hms, -⟩
  · obtain rfl := congrArg Prod.fst (hms.symm.trans hs)
    rw [hns, List.nil_append, List.nil_append]
    exact (resolve_perm hd.fields_nodup (hp.filter _)).symm
  · cases congrArg Prod.snd (hms.symm.trans hs)

theorem decodeValue_ofMembers {ms : List (String × Json)} {e : Envelope}
    (hd : Envelope.Distinct c.dialect ms)
    (hs : Envelope.scanTree c.dialect { inObject := true } ms = (e, none)) :
    c.decodeValue methods (ofMembers ms) = c.resolve methods (e, none) := by
  have hp : ms.Perm (arrange ms) := (arrange_perm hd.1).symm
  exact resolve_scanTree_perm hd hp hs

theorem decodeText_ofMembers {ms : List (String × Json)} {e : Envelope}
    (hplain : Plain maxDepth (ofMembers ms)) (hd : Envelope.Distinct c.dialect ms)
    (hs : Envelope.scanTree c.dialect { inObject := true } ms = (e, none)) :
    c.decodeText methods (ofMembers ms).text = c.resolve methods (e, none) := by
  rw [← decodeValue_ofMembers hd hs]
  exact decodeText_text hplain

/-- The scan of these members gives an envelope that is resolved to the message. -/
structure Recovers (c : Codec) (methods : MethodLookup) (ms : List (String × Json)) (m : Message) :
    Prop where
  distinct : Envelope.Distinct c.dialect ms
  resolved : ∃ e m', Envelope.scanTree c.dialect { inObject := true } ms = (e, none) ∧
    (c.resolve methods (e, none)).result = .ok m' ∧ (m' == m) = true

theorem Recovers.decodeText {ms : List (String × Json)} {m : Message}
    (h : c.Recovers methods ms m) (hplain : Plain maxDepth (ofMembers ms)) :
    ∃ m', (c.decodeText methods (ofMembers ms).text).result = .ok m' ∧ (m' == m) = true := by
  obtain ⟨e, m', hs, hres, heq⟩ := h.resolved
  refine ⟨m', ?_, heq⟩
  rw [decodeText_ofMembers hplain h.distinct hs, hres]

theorem encodeText_eq_ok {m : Message} {text : String} (h : (c.encodeText m).1 = .ok text) :
    ∃ v, (c.encode m).1 = .ok v ∧ v.text = text := map_eq_ok.mp h

/-- Encoding changes nothing that decoding reads. -/
theorem decodeText_encodeText (c : Codec) (methods : MethodLookup) (m : Message) (text : String) :
    (c.encodeText m).2.decodeText methods text = c.decodeText methods text := by
  obtain ⟨dialect, catalog, next⟩ := c
  cases dialect <;> rfl

end Codec
end RpcPeer
