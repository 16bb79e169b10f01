import RpcPeer.Proofs.Dialect.Slots

/-! The grammar of the debug dialect, in which two names go to one slot. -/
namespace RpcPeer
open Json

namespace Debug

/-- The tree that names the method: an `event` replaces a `command`, whatever the message is. -/
def nameIn (l : List (String × Json)) : Option Json := (l.lookup "event").or (l.lookup "command")

/-- What an object must say to be this message. -/
def Tells (l : List (String × Json)) : Message → Prop
  | .request id name _ => l.lookup "type" = some (.str request) ∧
      (∃ n : Int64, id = .number n ∧ l.lookup "seq" = some (.int n.toInt)) ∧
      nameIn l = some (.str name)
  | .notification name _ => l.lookup "type" = some (.str event) ∧ nameIn l = some (.str name)
  | .response id name _ => l.lookup "type" = some (.str response) ∧
      (∃ n : Int64, id = some (.number n) ∧ l.lookup "request_seq" = some (.int n.toInt)) ∧
      nameIn l = name.map .str

section
variable {l : List (String × Json)}

/-- No member behind an `event` goes to the slot of the method. -/
theorem method_slot_of_event_lt {name : String} (h : "event" < name) :
    Slot.ofKey? .debug name ≠ some .method := by
  intro hslot
  have hnames := Envelope.mem_slotNames hslot
  simp only [Envelope.slotNames, List.mem_cons, List.not_mem_nil, or_false] at hnames
  rcases hnames with rfl | rfl
  · exact absurd h (by decide)
  · exact absurd h (by decide)

theorem method_of_no_event (hl : (l.map (·.1)).Nodup) (hevent : l.lookup "event" = none)
    (hfits : ∀ m ∈ l, Envelope.Fits .debug m) {e : Envelope} (he : e.method = none) :
    (Envelope.enterAll .debug e l).method.map .str = nameIn l := by
  have halone : ∀ m ∈ l, Slot.ofKey? .debug m.1 = some .method → m.1 = "command" := by
    intro m hm hslot
    have hnames := Envelope.mem_slotNames hslot
    simp only [Envelope.slotNames, List.mem_cons, List.not_mem_nil, or_false] at hnames
    refine hnames.resolve_right fun hname => ?_
    have hmem : ("event", m.2) ∈ l := hname ▸ hm
    cases hevent.symm.trans ((lookup_eq_some_iff_mem hl).mpr hmem)
  have hnull : ∀ d, Slot.method.shape.decode .null ≠ .ok d := by
    intro d hd
    cases hd
  rw [nameIn, hevent, Option.none_or]
  exact Slot.Shows.method.eq_lookup (by decide) hnull halone hl hfits he

theorem method_of_inOrder (hl : InOrder l) (hfits : ∀ m ∈ l, Envelope.Fits .debug m)
    {e : Envelope} (he : e.method = none) :
    (Envelope.enterAll .debug e l).method.map .str = nameIn l := by
  cases hevent : l.lookup "event" with
  | none => exact method_of_no_event hl.nodup hevent hfits he
  | some v =>
    rw [nameIn, hevent, Option.some_or]
    obtain ⟨front, back, rfl⟩ := List.append_of_mem ((lookup_eq_some_iff_mem hl.nodup).mp hevent)
    have hslot : Slot.ofKey? .debug "event" = some .method := by decide
    have hfit : Envelope.Fits .debug ("event", v) := hfits _ (by simp)
    have hback : ∀ m ∈ back, Slot.ofKey? .debug m.1 ≠ some .method := fun m hm =>
      method_slot_of_event_lt
        (List.rel_of_pairwise_cons (List.pairwise_append.mp hl).2.1 hm)
    rw [Slot.Shows.method.of_last hslot hfit hback]
    obtain ⟨d, hd⟩ := hfit .method hslot
    obtain ⟨s, rfl, -⟩ := Shape.decode_text_eq_ok hd
    rfl

/-- What the scan of an object leaves of its scalars. -/
structure Shown (l : List (String × Json)) (e : Envelope) : Prop where
  kind : e.kind.map .str = l.lookup "type"
  seq : e.seq.map (.int ·.toInt) = l.lookup "seq"
  requestSeq : e.requestSeq.map (.int ·.toInt) = l.lookup "request_seq"
  method : e.method.map .str = nameIn l

theorem shown (b : Bool) (hl : (l.map (·.1)).Nodup) (hfits : ∀ m ∈ l, Envelope.Fits .debug m)
    (hmethod : (Envelope.enterAll .debug { inObject := b } l).method.map .str = nameIn l) :
    Shown l (Envelope.enterAll .debug { inObject := b } l) where
  kind := Slot.Shows.kind.eq_lookup (by decide) nofun (Envelope.alone_of_slotNames rfl) hl
    hfits rfl
  seq := Slot.Shows.seq.eq_lookup (by decide) nofun (Envelope.alone_of_slotNames rfl) hl
    hfits rfl
  requestSeq := Slot.Shows.requestSeq.eq_lookup (by decide) nofun
    (Envelope.alone_of_slotNames rfl) hl hfits rfl
  method := hmethod

end

section
variable {catalog : Catalog} {methods : MethodLookup} {l : List (String × Json)} {e : Envelope}
  {m : Message}

theorem tells_of_resolveRequest (h : Shown l e) (hkind : l.lookup "type" = some (.str request))
    (hok : resolveRequest catalog e = .ok m) : Tells l m := by
  unfold resolveRequest at hok
  split at hok
  next => cases hok
  next => cases hok
  next n name hseq hname =>
    split at hok
    next params _ =>
      cases hok
      refine ⟨hkind, ⟨n, rfl, ?_⟩, ?_⟩
      · rw [← h.seq, hseq]
        rfl
      · rw [← h.method, hname]
        rfl
    next => cases hok

theorem tells_of_resolveEvent (h : Shown l e) (hkind : l.lookup "type" = some (.str event))
    (hok : resolveEvent catalog e = .ok m) : Tells l m := by
  unfold resolveEvent at hok
  split at hok
  next => cases hok
  next name hname =>
    split at hok
    next params _ =>
      cases hok
      refine ⟨hkind, ?_⟩
      rw [← h.method, hname]
      rfl
    next => cases hok

theorem tells_of_resolveResponse (h : Shown l e) (hkind : l.lookup "type" = some (.str response))
    (hok : (resolveResponse catalog methods e).result = .ok m) : Tells l m := by
  unfold resolveResponse at hok
  split at hok
  next => cases hok
  next n hseq =>
    have hnumber : l.lookup "request_seq" = some (.int n.toInt) := by
      rw [← h.requestSeq, hseq]
      rfl
    split at hok <;>
    · cases hok
      exact ⟨hkind, ⟨n, rfl, hnumber⟩, h.method.symm⟩

theorem tells_of_resolve (h : Shown l e) (hok : (resolve catalog methods e none).result = .ok m) :
    Tells l m := by
  unfold resolve at hok
  dsimp only at hok
  split at hok
  next => cases hok
  next kind hkind =>
    have htype : l.lookup "type" = some (.str kind) := by
      rw [← h.kind, hkind]
      rfl
    split_ifs at hok with hrequest hevent hresponse
    · exact tells_of_resolveRequest h (eq_of_beq hrequest ▸ htype) hok
    · exact tells_of_resolveEvent h (eq_of_beq hevent ▸ htype) hok
    · exact tells_of_resolveResponse h (eq_of_beq hresponse ▸ htype) hok

/-- A request or an event without a name is invalid, whatever else it says. -/
theorem resolve_nameless (h : Shown l e) (hname : nameIn l = none)
    (hkind : l.lookup "type" = some (.str request) ∨ l.lookup "type" = some (.str event)) :
    ∃ i, (resolve catalog methods e none).result = .error i ∧ i.code = .invalidRequest := by
  have hmethod : e.method = none := Option.map_eq_none_iff.mp (h.method.trans hname)
  have hne : ¬ event = request := by decide
  rcases hkind with hkind | hkind <;>
    obtain ⟨kind, hk, he⟩ := Option.map_eq_some_iff.mp (h.kind.trans hkind) <;>
    obtain rfl := Json.str.inj he
  · cases hseq : e.seq with
    | none => exact ⟨_, by simp [resolve, hk, resolveRequest, hseq]; rfl, rfl⟩
    | some n => exact ⟨_, by simp [resolve, hk, resolveRequest, hseq, hmethod]; rfl, rfl⟩
  · exact ⟨_, by simp [resolve, hk, resolveEvent, hmethod, hne]; rfl, rfl⟩

end

end Debug

namespace Codec

/-- What the debug dialect makes of an object is told by its type, by the number that belongs to
this type and by the last of `command` and `event`. Without either of these a request and an event
are invalid. -/
theorem decodeValue_debug_tells (catalog : Catalog) (next : Int64) (methods : MethodLookup)
    (l : List (String × Json)) (hl : InOrder l) :
    (∀ m, ((⟨.debug, catalog, next⟩ : Codec).decodeValue methods (.obj l)).result = .ok m →
        Debug.Tells l m) ∧
      (Debug.nameIn l = none → (l.lookup "type" = some (.str Debug.request) ∨
          l.lookup "type" = some (.str Debug.event)) →
        ∃ i, ((⟨.debug, catalog, next⟩ : Codec).decodeValue methods (.obj l)).result = .error i ∧
          i.code = .invalidRequest) := by
  by_cases hfits : ∀ m ∈ l, Envelope.Fits .debug m
  · have hshown := Debug.shown true hl.nodup hfits (Debug.method_of_inOrder hl hfits rfl)
    have hvalue : (⟨.debug, catalog, next⟩ : Codec).decodeValue methods (.obj l) =
        Debug.resolve catalog methods (Envelope.enterAll .debug { inObject := true } l) none := by
      rw [decodeValue, Envelope.scanValue_of_fits hfits]
      rfl
    rw [hvalue]
    exact ⟨fun m => Debug.tells_of_resolve hshown, Debug.resolve_nameless hshown⟩
  · obtain ⟨e, err, hscan, hin⟩ := Envelope.scanTree_of_not_fits hfits { inObject := true }
    have hvalue : Envelope.scanValue .debug (.obj l) = (e, some (.data err)) := hscan
    obtain ⟨id, hi⟩ := resolve_stopped ⟨.debug, catalog, next⟩ methods e (.data err)
    rw [decodeValue, hvalue, hi]
    exact ⟨nofun, fun _ _ => ⟨_, rfl, by simp [Envelope.issueOf, hin, ReadError.cause]⟩⟩

theorem decodeValue_debug_tells_both_names :
    let l := [("command", .str "go"), ("event", .str "gone"), ("request_seq", .int 3),
      ("type", .str "response")]
    let k := [("seq", .int 3), ("type", .str "request")]
    InOrder l ∧ InOrder k ∧
      (∃ m, ((⟨.debug, ⟨[]⟩, 1⟩ : Codec).decodeValue noMethods (.obj l)).result = .ok m ∧
        Debug.Tells l m) ∧
      ∃ i, ((⟨.debug, ⟨[]⟩, 1⟩ : Codec).decodeValue noMethods (.obj k)).result = .error i ∧
        i.code = .invalidRequest := by
  intro l k
  have hl : InOrder l := by decide
  have hk : InOrder k := by decide
  obtain ⟨htells, -⟩ := decodeValue_debug_tells ⟨[]⟩ 1 noMethods l hl
  obtain ⟨-, hnameless⟩ := decodeValue_debug_tells ⟨[]⟩ 1 noMethods k hk
  exact ⟨hl, hk, ⟨_, rfl, htells _ rfl⟩, hnameless rfl (.inl rfl)⟩

/-- A request that names an event and no command is taken for one of this method, and an event that
names a command and no event as well. -/
theorem request_named_by_event :
    let c : Codec := ⟨.debug, ⟨[]⟩, 1⟩
    let l := [("event", .str "any"), ("seq", .int 1), ("type", .str Debug.request)]
    let k := [("command", .str "any"), ("type", .str Debug.event)]
    InOrder l ∧ l.lookup "command" = none ∧ InOrder k ∧ k.lookup "event" = none ∧
      (c.decodeValue noMethods (.obj l)).result = .ok (.request (.number 1) "any" .absent) ∧
      (c.decodeValue noMethods (.obj k)).result = .ok (.notification "any" .absent) := by
  intro c l k
  exact ⟨by decide, rfl, by decide, rfl, rfl, rfl⟩

end Codec
end RpcPeer
