import RpcPeer.Proofs.Dialect.DebugRoundTrip
import RpcPeer.Proofs.Dialect.BaseRoundTrip
import RpcPeer.Proofs.Dialect.Resolution
import RpcPeer.Proofs.Json.Rereading

/-! What the other side gets of a message, whatever its payload is. -/
namespace RpcPeer
open Json Steps

namespace Json

/-- What the other side gets for a value: the value, or what its text is taken for. -/
def ComesAs (depth : Nat) (v w : Json) : Prop := w = v ∨ TakenFor (value depth) v w

/-- The members that the other side gets, in their order. -/
def MembersCome (depth : Nat) (ms ns : List (String × Json)) : Prop :=
  List.Forall₂ (fun m n => n.1 = m.1 ∧ ComesAs depth m.2 n.2) ms ns

section
variable {depth : Nat} {v w : Json} {key : String} {ms ns : List (String × Json)}

theorem ComesAs.eq_of_plain (h : ComesAs depth v w) (hv : Plain depth v) : w = v :=
  h.elim id fun htaken => htaken.eq_of_plain hv

theorem ComesAs.of_obj (h : ComesAs (depth + 1) (obj ms) w) (ho : InOrder ms) :
    ∃ ns, w = ofMembers ns ∧ MembersCome depth ms ns := by
  rcases h with rfl | htaken
  · refine ⟨ms, congrArg obj ho.arrange_eq.symm, ?_⟩
    exact List.forall₂_same.mpr fun m _ => ⟨rfl, .inl rfl⟩
  · obtain ⟨ns, rfl, hns⟩ := htaken.of_obj
    exact ⟨ns, rfl, hns.imp fun _ _ hm => ⟨hm.1, .inr hm.2⟩⟩

theorem MembersCome.names (h : MembersCome depth ms ns) : ns.map (·.1) = ms.map (·.1) := by
  induction h with
  | nil => rfl
  | cons hm _ ih => rw [List.map_cons, List.map_cons, hm.1, ih]

theorem MembersCome.cons (h : MembersCome depth ((key, v) :: ms) ns) :
    ∃ w ns', ns = (key, w) :: ns' ∧ ComesAs depth v w ∧ MembersCome depth ms ns' := by
  cases h with
  | @cons _ n _ ns' hm hms =>
    obtain ⟨k, w⟩ := n
    obtain ⟨rfl, hw⟩ := hm
    exact ⟨w, ns', rfl, hw, hms⟩

theorem MembersCome.cons_plain (h : MembersCome depth ((key, v) :: ms) ns) (hv : Plain depth v) :
    ∃ ns', ns = (key, v) :: ns' ∧ MembersCome depth ms ns' := by
  obtain ⟨w, ns', rfl, hw, hms⟩ := h.cons
  exact ⟨ns', by rw [hw.eq_of_plain hv], hms⟩

theorem MembersCome.nil (h : MembersCome depth [] ns) : ns = [] := by
  cases h
  rfl

theorem MembersCome.eq_of_plain (h : MembersCome depth ms ns) (hp : ∀ m ∈ ms, Plain depth m.2) :
    ns = ms := by
  induction h with
  | nil => rfl
  | @cons m n ms ns hm _ ih =>
    have hv : n.2 = m.2 := hm.2.eq_of_plain (hp m List.mem_cons_self)
    rw [ih fun m hm => hp m (.tail _ hm), Prod.ext hm.1 hv]

/-- The members in front come back as they were. -/
theorem MembersCome.append_plain (front : List (String × Json))
    (h : MembersCome depth (front ++ ms) ns) (hp : ∀ m ∈ front, Plain depth m.2) :
    ∃ ns', ns = front ++ ns' ∧ MembersCome depth ms ns' := by
  induction front generalizing ns with
  | nil => exact ⟨ns, rfl, h⟩
  | cons m front ih =>
    obtain ⟨rest, rfl, hrest⟩ := h.cons_plain (hp m List.mem_cons_self)
    obtain ⟨ns', rfl, hns'⟩ := ih hrest fun n hn => hp n (.tail _ hn)
    exact ⟨ns', rfl, hns'⟩

end
end Json

theorem MessageId.plain_toJson (depth : Nat) (id : MessageId) : Plain depth id.toJson := by
  cases id with
  | number n =>
    have hlow := n.le_toInt
    have hhigh := n.toInt_lt
    exact .int (by omega) (by omega)
  | text s => exact .str

theorem Envelope.scanTree_fields {dialect : Dialect} {ns : List (String × Json)}
    (h : ∀ n ∈ ns, Slot.ofKey? dialect n.1 = none) (e : Envelope) :
    scanTree dialect e ns = (e.withFields (e.fields ++ ns), none) := by
  induction ns generalizing e with
  | nil =>
    rw [List.append_nil]
    rfl
  | cons n ns ih =>
    have hrest := ih (fun m hm => h m (.tail _ hm)) (e.addField n.1 n.2)
    rw [← Prod.mk.eta (p := n), scanTree_field (h n List.mem_cons_self), hrest]
    simp [addField, withFields]

namespace Codec

/-- What the other side makes of a message: of its tree, or of its text if this can be read as JSON
at all. -/
inductive Conveys (c d : Codec) (methods : MethodLookup) (m : Message) : Except Issue Message → Prop
  | tree {v : Json} (h : (c.encode m).1 = .ok v) :
    Conveys c d methods m (d.decodeValue methods v).result
  | text {text : String} {ns : List (String × Json)} (h : (c.encodeText m).1 = .ok text)
    (readable : parseMembers text = .ok ns) :
    Conveys c d methods m (d.decodeText methods text).result

section
variable {c d : Codec} {methods : MethodLookup} {m : Message} {r : Except Issue Message}

theorem Conveys.exists_encoded (h : c.Conveys d methods m r) : ∃ v, (c.encode m).1 = .ok v := by
  cases h with
  | tree h => exact ⟨_, h⟩
  | text h readable =>
    obtain ⟨v, hv, -⟩ := encodeText_eq_ok h
    exact ⟨v, hv⟩

/-- The other side gets the members that were written, and scans them as if they came in the order
of writing. -/
theorem Conveys.exists_members {ms : List (String × Json)} (h : c.Conveys d methods m r)
    (hms : (c.encode m).1 = .ok (ofMembers ms)) (hd : Envelope.Distinct d.dialect ms) :
    ∃ ns, MembersCome (maxDepth - 1) ms ns ∧ ∀ e,
      Envelope.scanTree d.dialect { inObject := true } ns = (e, none) →
        r = (d.resolve methods (e, none)).result := by
  cases h with
  | tree h =>
    obtain rfl := Except.ok.inj (h.symm.trans hms)
    refine ⟨ms, List.forall₂_same.mpr fun m _ => ⟨rfl, .inl rfl⟩, fun e he => ?_⟩
    rw [decodeValue_ofMembers hd he]
  | text h readable =>
    obtain ⟨v, hv, rfl⟩ := encodeText_eq_ok h
    obtain rfl := Except.ok.inj (hv.symm.trans hms)
    have htaken := members_of_parseMembers readable
    -- the text has the members sorted, but the scan may follow them in the order of writing
    have hperm : ms.Perm (arrange ms) := (arrange_perm hd.1).symm
    obtain ⟨ns, hns, hread⟩ := List.perm_comp_forall₂ hperm htaken
    have hcome : MembersCome (maxDepth - 1) ms ns := hns.imp fun _ _ hm => ⟨hm.1, .inr hm.2⟩
    refine ⟨ns, hcome, fun e he => ?_⟩
    have hdistinct : Envelope.Distinct d.dialect ns := by
      rw [Envelope.Distinct, hcome.names]
      exact hd
    rw [decodeText_of_parseMembers readable, resolve_scanTree_perm hdistinct hread he]

/-- Where the scan takes in plain members first and only fields follow, the other side resolves an
envelope with what has become of these. -/
theorem Conveys.exists_fields (front : List (String × Json)) {fields : List (String × Json)}
    {e : Envelope} (h : c.Conveys d methods m r)
    (hms : (c.encode m).1 = .ok (ofMembers (front ++ fields)))
    (hd : Envelope.Distinct d.dialect (front ++ fields))
    (hplain : ∀ m ∈ front, Plain (maxDepth - 1) m.2)
    (hfields : ∀ m ∈ fields, Slot.ofKey? d.dialect m.1 = none)
    (hscan : ∀ ns, Envelope.scanTree d.dialect { inObject := true } (front ++ ns) =
      Envelope.scanTree d.dialect e ns) :
    ∃ ns, MembersCome (maxDepth - 1) fields ns ∧
      r = (d.resolve methods (e.withFields (e.fields ++ ns), none)).result := by
  obtain ⟨all, hall, hres⟩ := h.exists_members hms hd
  obtain ⟨ns, rfl, hns⟩ := hall.append_plain front hplain
  have hnone : ∀ n ∈ ns, Slot.ofKey? d.dialect n.1 = none := by
    intro n hn
    have hname : n.1 ∈ fields.map (·.1) := hns.names ▸ List.mem_map_of_mem hn
    obtain ⟨m, hm, hmn⟩ := List.mem_map.mp hname
    rw [← hmn]
    exact hfields m hm
  exact ⟨ns, hns, hres _ ((hscan ns).trans (Envelope.scanTree_fields hnone e))⟩

end
end Codec

theorem Decoding.owed?_of_request {d : Decoding} {id : MessageId} {method : String}
    {params : Payload} (h : d.result = .ok (.request id method params)) :
    d.owed? = some (id, method) := by
  rw [owed?, h]

theorem Payload.plain_memberOf {depth : Nat} {name : String} {j : Option Json}
    (h : ∀ v, j = some v → Plain depth v) : ∀ m ∈ memberOf name j, Plain depth m.2 := by
  intro m hm
  unfold memberOf at hm
  rcases present_cases j with ⟨hnone, -⟩ | ⟨v, hv, hj⟩
  · rw [hnone] at hm
    cases hm
  · rw [hv] at hm
    obtain rfl := List.mem_singleton.mp hm
    exact h v hj

theorem Payload.slot_memberOf {dialect : Dialect} {name : String}
    (h : Slot.ofKey? dialect name = none) (j : Option Json) :
    ∀ m ∈ memberOf name j, Slot.ofKey? dialect m.1 = none := by
  intro m hm
  have hname : m.1 ∈ (memberOf name j).map (·.1) := List.mem_map_of_mem hm
  rcases names_memberOf name j with hnil | hone
  · rw [hnil] at hname
    cases hname
  · rw [hone] at hname
    rw [List.mem_singleton.mp hname]
    exact h

/-- Whether there is a payload or not, its name is one more at most. -/
theorem Envelope.Distinct.memberOf {dialect : Dialect} {front : List (String × Json)}
    {name : String} (h : Distinct dialect (front ++ [(name, .null)])) (j : Option Json) :
    Distinct dialect (front ++ Payload.memberOf name j) := by
  have hnames : ((front ++ Payload.memberOf name j).map (·.1)).Sublist
      ((front ++ [(name, Json.null)]).map (·.1)) := by
    rw [List.map_append, List.map_append]
    rcases Payload.names_memberOf name j with hnil | hone
    · rw [hnil]
      exact (List.nil_sublist _).append_left _
    · rw [hone]
      exact List.Sublist.refl _
  constructor
  · exact h.1.sublist hnames
  · intro hdebug hboth
    exact h.2 hdebug ⟨hnames.subset hboth.1, hnames.subset hboth.2⟩

/-- An error comes back as one, perhaps with other data. -/
theorem ResponseError.comes {depth : Nat} {e : ResponseError} {w : Json}
    (h : ComesAs (depth + 1) e.toJson w) : ∃ e' : ResponseError, w = e'.toJson := by
  obtain ⟨ns, rfl, hcome⟩ := h.of_obj (inOrder_arrange e.members)
  obtain ⟨code, message, data⟩ := e
  have hcode : Plain depth (.int code.toInt) := by
    have hlow := code.le_toInt
    have hhigh := code.toInt_lt
    exact .int (by omega) (by omega)
  cases data with
  | none =>
    have hmembers : MembersCome depth [("code", .int code.toInt), ("message", .str message)] ns :=
      hcome
    obtain ⟨afterCode, rfl, hmessage⟩ := hmembers.cons_plain hcode
    obtain ⟨rest, rfl, hrest⟩ := hmessage.cons_plain .str
    obtain rfl := hrest.nil
    exact ⟨⟨code, message, none⟩, rfl⟩
  | some v =>
    have hmembers : MembersCome depth
        [("code", .int code.toInt), ("data", v), ("message", .str message)] ns := hcome
    obtain ⟨afterCode, rfl, hdata⟩ := hmembers.cons_plain hcode
    obtain ⟨w, afterData, rfl, -, hmessage⟩ := hdata.cons
    obtain ⟨rest, rfl, hrest⟩ := hmessage.cons_plain .str
    obtain rfl := hrest.nil
    exact ⟨⟨code, message, some w⟩, rfl⟩

namespace Base

section
variable {catalog catalog' : Catalog} {next next' : Int64} {methods : MethodLookup}
  {r : Except Issue Message} {method : String} {params : Payload}

theorem owed?_of_conveys {id : MessageId}
    (h : (⟨.base, catalog, next⟩ : Codec).Conveys ⟨.base, catalog', next'⟩ methods
      (.request id method params) r) :
    ({ result := r } : Decoding).owed? = some (id, method) := by
  obtain ⟨v, hv⟩ := h.exists_encoded
  obtain ⟨ms, hms, rfl⟩ := encode_eq_ok hv
  obtain ⟨j, -, rfl⟩ := members_request hms
  have hscan : ∀ ns, Envelope.scanTree .base { inObject := true } (("jsonrpc", .str version) ::
      ("id", id.toJson) :: ("method", .str method) :: ns) =
        Envelope.scanTree .base (versioned (some id) (some method) []) ns := by
    intro ns
    rw [scan_version]
    exact (scan_id (some id) _).trans (scan_method method)
  have hname : Slot.ofKey? .base "params" = none := by decide
  obtain ⟨ns, -, rfl⟩ := h.exists_fields
    [("jsonrpc", .str version), ("id", id.toJson), ("method", .str method)] hv
    (.memberOf (by simp [Envelope.Distinct]) j) (by simp [Plain.str, id.plain_toJson])
    (Payload.slot_memberOf hname j) hscan
  exact owed?_resolve catalog' methods (versioned (some id) (some method) ns) none

/-- A notification whose parameters are no trouble to read comes with them. -/
theorem notification_of_conveys {j : Option Json} {q : Payload} (hj : params.toJson = .ok j)
    (hplain : ∀ v, j = some v → Plain (maxDepth - 1) v)
    (hq : catalog'.resolveParams method (present j) = .ok q)
    (h : (⟨.base, catalog, next⟩ : Codec).Conveys ⟨.base, catalog', next'⟩ methods
      (.notification method params) r) : r = .ok (.notification method q) := by
  obtain ⟨v, hv⟩ := h.exists_encoded
  obtain ⟨ms, hms, rfl⟩ := encode_eq_ok hv
  obtain ⟨j', hj', rfl⟩ := members_notification hms
  obtain rfl := Except.ok.inj (hj'.symm.trans hj)
  have hscan : ∀ ns, Envelope.scanTree .base { inObject := true } (("jsonrpc", .str version) ::
      ("method", .str method) :: ns) =
        Envelope.scanTree .base (versioned none (some method) []) ns := by
    intro ns
    rw [scan_version]
    exact scan_method method
  have hname : Slot.ofKey? .base "params" = none := by decide
  obtain ⟨ns, hns, rfl⟩ := h.exists_fields [("jsonrpc", .str version), ("method", .str method)] hv
    (.memberOf (by simp [Envelope.Distinct]) j') (by simp [Plain.str])
    (Payload.slot_memberOf hname j') hscan
  obtain rfl := hns.eq_of_plain (Payload.plain_memberOf hplain)
  rw [← Envelope.takeField_memberOf (e := versioned none (some method) _) rfl] at hq
  exact resolve_notification catalog' methods hq

/-- A response comes with its id, and a result comes as a result. -/
theorem response_of_conveys {id : Option MessageId} {name : Option String} {o : Outcome}
    (h : (⟨.base, catalog, next⟩ : Codec).Conveys ⟨.base, catalog', next'⟩ methods
      (.response id name o) r) :
    ∃ o', r = .ok (.response id none o') ∧ o'.isResult = o.isResult := by
  obtain ⟨v, hv⟩ := h.exists_encoded
  obtain ⟨ms, hms, rfl⟩ := encode_eq_ok hv
  have hid : Plain (maxDepth - 1) (writtenId id) := by
    cases id with
    | none => exact .null
    | some id => exact id.plain_toJson _
  have hfront : ∀ m ∈ [("jsonrpc", .str version), ("id", writtenId id)],
      Plain (maxDepth - 1) m.2 := by simp [Plain.str, hid]
  have hscan : ∀ ns, Envelope.scanTree .base { inObject := true } (("jsonrpc", .str version) ::
      ("id", writtenId id) :: ns) = Envelope.scanTree .base (versioned id none []) ns := by
    intro ns
    rw [scan_version, scan_id]
  cases o with
  | result p =>
    obtain ⟨j, -, rfl⟩ := members_result hms
    obtain ⟨ns, hns, rfl⟩ := h.exists_fields [("jsonrpc", .str version), ("id", writtenId id)] hv
      (by simp [Envelope.Distinct]) hfront (by simp; decide) hscan
    obtain ⟨w, rest, rfl, -, hrest⟩ := hns.cons
    obtain rfl := hrest.nil
    exact ⟨_, resolve_result catalog' methods id w, rfl⟩
  | error e =>
    obtain rfl := members_error hms
    obtain ⟨ns, hns, rfl⟩ := h.exists_fields [("jsonrpc", .str version), ("id", writtenId id)] hv
      (by simp [Envelope.Distinct]) hfront (by simp; decide) hscan
    obtain ⟨w, rest, rfl, hw, hrest⟩ := hns.cons
    obtain rfl := hrest.nil
    obtain ⟨e', rfl⟩ := ResponseError.comes hw
    obtain ⟨read, hread⟩ := e'.exists_decode_toJson
    exact ⟨_, resolve_error catalog' methods id rfl hread, rfl⟩

end
end Base

namespace Debug

theorem plain_int64 (depth : Nat) (n : Int64) : Plain depth (.int n.toInt) :=
  (MessageId.number n).plain_toJson depth

theorem plain_responseHead (depth : Nat) (k n : Int64) (ok : Bool) (method : Option String) :
    ∀ m ∈ responseHead k n ok method, Plain depth m.2 := by
  cases method <;> simp [responseHead, plain_int64, Plain.str, Plain.bool]

section
variable {catalog catalog' : Catalog} {next next' : Int64} {methods : MethodLookup}
  {r : Except Issue Message} {method : String} {params : Payload} {n : Int64}

theorem owed?_of_conveys
    (h : (⟨.debug, catalog, next⟩ : Codec).Conveys ⟨.debug, catalog', next'⟩ methods
      (.request (.number n) method params) r) :
    ({ result := r } : Decoding).owed? = some (.number n, method) := by
  obtain ⟨v, hv⟩ := h.exists_encoded
  obtain ⟨ms, hms, rfl⟩ := map_eq_ok.mp hv
  obtain ⟨j, -, rfl⟩ := requestMembers_eq_ok hms
  have hname : Slot.ofKey? .debug "arguments" = none := by decide
  obtain ⟨ns, -, rfl⟩ := h.exists_fields
    [("seq", .int n.toInt), ("type", .str request), ("command", .str method)] hv
    (.memberOf (by simp [Envelope.Distinct]) j) (by simp [Plain.str, plain_int64])
    (Payload.slot_memberOf hname j) fun ns => scan_request n method
  exact owed?_resolve_request catalog' methods (e := requested n method ns) rfl rfl rfl none

theorem notification_of_conveys {j : Option Json} {q : Payload} (hj : params.toJson = .ok j)
    (hplain : ∀ v, j = some v → Plain (maxDepth - 1) v)
    (hq : catalog'.resolveParams method (present j) = .ok q)
    (h : (⟨.debug, catalog, next⟩ : Codec).Conveys ⟨.debug, catalog', next'⟩ methods
      (.notification method params) r) : r = .ok (.notification method q) := by
  obtain ⟨v, hv⟩ := h.exists_encoded
  obtain ⟨ms, hms, rfl⟩ := map_eq_ok.mp hv
  obtain ⟨j', hj', rfl⟩ := eventMembers_eq_ok hms
  obtain rfl := Except.ok.inj (hj'.symm.trans hj)
  have hname : Slot.ofKey? .debug "body" = none := by decide
  obtain ⟨ns, hns, rfl⟩ := h.exists_fields
    [("seq", .int next.toInt), ("type", .str event), ("event", .str method)] hv
    (.memberOf (by simp [Envelope.Distinct]) j') (by simp [Plain.str, plain_int64])
    (Payload.slot_memberOf hname j') fun ns => scan_event next method
  obtain rfl := hns.eq_of_plain (Payload.plain_memberOf hplain)
  rw [← Envelope.takeField_memberOf (e := raised next method _) rfl] at hq
  exact resolve_event catalog' methods rfl rfl hq

theorem response_of_conveys {name : Option String} {o : Outcome}
    (h : (⟨.debug, catalog, next⟩ : Codec).Conveys ⟨.debug, catalog', next'⟩ methods
      (.response (some (.number n)) name o) r) :
    ∃ o', r = .ok (.response (some (.number n)) name o') ∧ o'.isResult = o.isResult := by
  obtain ⟨v, hv⟩ := h.exists_encoded
  obtain ⟨ms, hms, rfl⟩ := map_eq_ok.mp hv
  obtain ⟨ps, hps, rfl⟩ := responseMembers_eq_ok hms
  have hfront := plain_responseHead (maxDepth - 1) next n o.isResult name
  cases o with
  | result p =>
    obtain ⟨j, -, rfl⟩ := Payload.member_eq_ok hps
    have hdistinct : Envelope.Distinct .debug (responseHead next n true name ++
        [("body", .null)]) := by
      cases name <;> simp [Envelope.Distinct, responseHead]
    have hname : Slot.ofKey? .debug "body" = none := by decide
    obtain ⟨ns, -, rfl⟩ := h.exists_fields _ hv (hdistinct.memberOf j) hfront
      (Payload.slot_memberOf hname j) fun ns => scan_responseHead next n true name
    exact ⟨_, resolve_result catalog' methods (e := answered next n true name none ns) rfl rfl rfl,
      rfl⟩
  | error e =>
    obtain rfl := Except.ok.inj ((outcomeMembers_error e).symm.trans hps)
    have hdistinct : Envelope.Distinct .debug (responseHead next n false name ++
        [("message", .str e.message), ("body", writtenBody e)]) := by
      cases name <;> simp [Envelope.Distinct, responseHead]
    have hscan : ∀ ns, Envelope.scanTree .debug { inObject := true }
        (responseHead next n false name ++ [("message", .str e.message)] ++ ns) =
          Envelope.scanTree .debug (answered next n false name (some e.message) []) ns := by
      intro ns
      rw [List.append_assoc]
      exact (scan_responseHead next n false name).trans (scan_message e.message)
    obtain ⟨ns, -, rfl⟩ := h.exists_fields
      (responseHead next n false name ++ [("message", .str e.message)])
      (by rw [List.append_assoc]; exact hv) (by rw [List.append_assoc]; exact hdistinct)
      (List.forall_mem_append.mpr ⟨hfront, by simp [Plain.str]⟩) (by simp; decide) hscan
    exact ⟨_, resolve_error catalog' methods
      (e := answered next n false name (some e.message) ns) rfl rfl rfl, rfl⟩

end
end Debug
end RpcPeer
