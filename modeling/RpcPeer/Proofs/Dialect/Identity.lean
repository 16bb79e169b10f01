import RpcPeer.Proofs.Dialect.BaseRoundTrip
import RpcPeer.Proofs.Dialect.Passed
import RpcPeer.Proofs.Dialect.Resolution

/-! No request is lost once its id and its method have been read. -/
namespace RpcPeer
open Json

/-- A part of the envelope that no other slot touches. -/
structure Slot.Governs {α : Type} (slot : Slot) (p : Envelope → α) : Prop where
  frame : ∀ e other d, other ≠ slot → p (e.fill other d) = p e
  fields : ∀ e l, p (e.withFields l) = p e

namespace Slot.Governs

theorem id : Slot.id.Governs Envelope.id where
  frame e other d h := by cases other <;> first | rfl | exact absurd rfl h
  fields _ _ := rfl

theorem method : Slot.method.Governs Envelope.method where
  frame e other d h := by cases other <;> first | rfl | exact absurd rfl h
  fields _ _ := rfl

theorem kind : Slot.kind.Governs Envelope.kind where
  frame e other d h := by cases other <;> first | rfl | exact absurd rfl h
  fields _ _ := rfl

theorem seq : Slot.seq.Governs Envelope.seq where
  frame e other d h := by cases other <;> first | rfl | exact absurd rfl h
  fields _ _ := rfl

section
variable {α : Type} {slot : Slot} {p : Envelope → α} {dialect : Dialect} {e : Envelope}
  {m : String × Json} {ms ns : List (String × Json)}

theorem enter_of_ne (h : slot.Governs p) (hm : Slot.ofKey? dialect m.1 ≠ some slot)
    (e : Envelope) : p (Envelope.enter dialect e m) = p e := by
  unfold Envelope.enter
  split
  next => rfl
  next other hother =>
    split
    next => exact h.frame e other _ fun he => hm (he ▸ hother)
    next => rfl

theorem enterAll_of_ne (h : slot.Governs p) (hms : ∀ m ∈ ms, Slot.ofKey? dialect m.1 ≠ some slot)
    (e : Envelope) : p (Envelope.enterAll dialect e ms) = p e := by
  rw [Envelope.enterAll, h.fields]
  induction ms generalizing e with
  | nil => rfl
  | cons m ms ih =>
    have hrest := ih fun n hn => hms n (.tail _ hn)
    rw [List.foldl_cons, hrest, h.enter_of_ne (hms m List.mem_cons_self)]

end
end Slot.Governs

namespace Envelope

/-- The value of this name. Of equal names the last one counts. -/
def lastOf (ms : List (String × Json)) (name : String) : Option Json := ms.reverse.lookup name

section
variable {dialect : Dialect} {ms ns : List (String × Json)} {name : String} {v : Json}

theorem lastOf_eq_some (h : lastOf ms name = some v) :
    ∃ front back, ms = front ++ (name, v) :: back ∧ ∀ m ∈ back, m.1 ≠ name := by
  obtain ⟨back, front, hms, hback⟩ := List.lookup_eq_some_iff.mp h
  refine ⟨front.reverse, back.reverse, ?_, fun m hm => ?_⟩
  · simpa using congrArg List.reverse hms
  · exact (bne_iff_ne.mp (hback m (List.mem_reverse.mp hm))).symm

theorem fits_lastOf (h : lastOf ms name = some v) (hfits : ∀ m ∈ ms, Fits dialect m) {slot : Slot}
    (hname : Slot.ofKey? dialect name = some slot) : ∃ d, slot.shape.decode v = .ok d := by
  obtain ⟨front, back, rfl, -⟩ := lastOf_eq_some h
  exact hfits (name, v) (by simp) slot hname

/-- A slot with one name. -/
theorem alone_of_slotNames {slot : Slot} (hone : slotNames dialect slot = [name]) :
    ∀ m ∈ ms, Slot.ofKey? dialect m.1 = some slot → m.1 = name :=
  fun _ _ h => List.mem_singleton.mp (hone ▸ mem_slotNames h)

/-- The last value for a slot stays there. -/
theorem slot_of_lastOf {α : Type} {slot : Slot} {p : Envelope → α} {x : α} {d : Datum}
    (hp : slot.Governs p) (hname : Slot.ofKey? dialect name = some slot)
    (halone : ∀ m ∈ ms, Slot.ofKey? dialect m.1 = some slot → m.1 = name)
    (hlast : lastOf ms name = some v) (hd : slot.shape.decode v = .ok d)
    (hfill : ∀ e : Envelope, p (e.fill slot d) = x)
    (hns : ∀ n ∈ ns, Slot.ofKey? dialect n.1 ≠ some slot) (e : Envelope) :
    p (enterAll dialect e (ms ++ ns)) = x := by
  obtain ⟨front, back, rfl, hback⟩ := lastOf_eq_some hlast
  have hafter : ∀ m ∈ back ++ ns, Slot.ofKey? dialect m.1 ≠ some slot := by
    intro m hm hslot
    rcases List.mem_append.mp hm with hm | hm
    · exact hback m hm (halone m (by simp [hm]) hslot)
    · exact hns m hm hslot
  have hsplit : front ++ (name, v) :: back ++ ns = front ++ ([(name, v)] ++ (back ++ ns)) := by simp
  rw [hsplit, enterAll_append, enterAll_append, hp.enterAll_of_ne hafter]
  have henter : enter dialect (enterAll dialect e front) (name, v) =
      (enterAll dialect e front).fill slot d := by
    simp only [enter, hname, hd]
  rw [enterAll, hp.fields, List.foldl_cons, List.foldl_nil, henter, hfill]

end
end Envelope

namespace Dialect

def idName : Dialect → String
  | base => "id"
  | debug => "seq"

def methodName : Dialect → String
  | base => "method"
  | debug => "command"

/-- The slots from which a request is known. -/
def identitySlots : Dialect → List Slot
  | base => [.id, .method]
  | debug => [.kind, .seq, .method]

/-- The members tell that the message is a request, its id and its method. -/
def NamesRequest : Dialect → List (String × Json) → Prop
  | base, ms => (∃ v, Envelope.lastOf ms "id" = some v ∧ v ≠ .null) ∧
      ∃ v, Envelope.lastOf ms "method" = some v
  | debug, ms => Envelope.lastOf ms "type" = some (.str Debug.request) ∧
      (∃ v, Envelope.lastOf ms "seq" = some v) ∧ (∃ v, Envelope.lastOf ms "command" = some v) ∧
      ∀ m ∈ ms, m.1 ≠ "event"

/-- This id and this method are written in the members. -/
def Identifies (dialect : Dialect) (ms : List (String × Json)) (id : MessageId) (method : String) :
    Prop :=
  Envelope.lastOf ms dialect.idName = some id.toJson ∧
    Envelope.lastOf ms dialect.methodName = some (.str method)

end Dialect

/-- However far the scan gets in this text, it finds no value for these slots. -/
def Envelope.LeavesAlone (dialect : Dialect) (slots : List Slot) (cs : List Char) : Prop :=
  ∀ ns rest, Scans dialect false cs ns rest →
    ∀ slot ∈ slots, ∀ n ∈ ns, Slot.ofKey? dialect n.1 ≠ some slot

section
variable {catalog : Catalog} {methods : MethodLookup} {ms ns : List (String × Json)} {e : Envelope}
  {name method : String} {v : Json}

theorem ne_nil_of_lastOf (h : Envelope.lastOf ms name = some v) : ms ≠ [] := by
  rintro rfl
  cases h

theorem Dialect.NamesRequest.ne_nil {dialect : Dialect} (h : dialect.NamesRequest ms) :
    ms ≠ [] := by
  cases dialect with
  | base => exact ne_nil_of_lastOf h.2.choose_spec
  | debug => exact ne_nil_of_lastOf h.1

theorem method_of_lastOf {dialect : Dialect}
    (hname : Slot.ofKey? dialect name = some .method)
    (halone : ∀ m ∈ ms, Slot.ofKey? dialect m.1 = some .method → m.1 = name)
    (hlast : Envelope.lastOf ms name = some v) (hfits : ∀ m ∈ ms, Envelope.Fits dialect m)
    (hns : ∀ n ∈ ns, Slot.ofKey? dialect n.1 ≠ some .method) (e : Envelope) :
    ∃ s, v = .str s ∧ (Envelope.enterAll dialect e (ms ++ ns)).method = some s := by
  obtain ⟨d, hd⟩ := Envelope.fits_lastOf hlast hfits hname
  obtain ⟨s, rfl, rfl⟩ := Shape.decode_text_eq_ok hd
  exact ⟨s, rfl, Envelope.slot_of_lastOf .method hname halone hlast hd (fun _ => rfl) hns e⟩

theorem Base.identity_of_names (hnames : Dialect.base.NamesRequest ms)
    (hfits : ∀ m ∈ ms, Envelope.Fits .base m)
    (hns : ∀ slot ∈ Dialect.base.identitySlots, ∀ n ∈ ns, Slot.ofKey? .base n.1 ≠ some slot)
    (e : Envelope) :
    ∃ id method, Dialect.base.Identifies ms id method ∧
      (Envelope.enterAll .base e (ms ++ ns)).id = some id ∧
      (Envelope.enterAll .base e (ms ++ ns)).method = some method := by
  obtain ⟨⟨v, hv, hnull⟩, w, hw⟩ := hnames
  have hid : Slot.ofKey? .base "id" = some .id := by decide
  have hmethod : Slot.ofKey? .base "method" = some .method := by decide
  obtain ⟨d, hd⟩ := Envelope.fits_lastOf hv hfits hid
  have hdecode : Shape.decodeId v = .ok d := by
    cases v with
    | null => exact absurd rfl hnull
    | _ => exact hd
  obtain ⟨id, rfl, rfl⟩ := Shape.decodeId_eq_ok hdecode
  obtain ⟨method, rfl, hm⟩ := method_of_lastOf hmethod (Envelope.alone_of_slotNames rfl) hw hfits
    (hns .method (by simp [Dialect.identitySlots])) e
  refine ⟨id, method, ⟨hv, hw⟩, ?_, hm⟩
  exact Envelope.slot_of_lastOf .id hid (Envelope.alone_of_slotNames rfl) hv hd
    (fun _ => MessageId.ofDatum?_toDatum id) (hns .id (by simp [Dialect.identitySlots])) e

theorem Debug.identity_of_names (hnames : Dialect.debug.NamesRequest ms)
    (hfits : ∀ m ∈ ms, Envelope.Fits .debug m)
    (hns : ∀ slot ∈ Dialect.debug.identitySlots, ∀ n ∈ ns, Slot.ofKey? .debug n.1 ≠ some slot)
    (e : Envelope) :
    ∃ n method, Dialect.debug.Identifies ms (.number n) method ∧
      (Envelope.enterAll .debug e (ms ++ ns)).kind = some request ∧
      (Envelope.enterAll .debug e (ms ++ ns)).seq = some n ∧
      (Envelope.enterAll .debug e (ms ++ ns)).method = some method := by
  obtain ⟨ht, ⟨v, hv⟩, ⟨w, hw⟩, hevent⟩ := hnames
  have hkind : Slot.ofKey? .debug "type" = some .kind := by decide
  have hseq : Slot.ofKey? .debug "seq" = some .seq := by decide
  have hmethod : Slot.ofKey? .debug "command" = some .method := by decide
  -- an event would fill the slot of the command
  have hcommand : ∀ m ∈ ms, Slot.ofKey? .debug m.1 = some .method → m.1 = "command" := by
    intro m hm h
    have hnames := Envelope.mem_slotNames h
    simpa [Envelope.slotNames, hevent m hm] using hnames
  obtain ⟨d, hd⟩ := Envelope.fits_lastOf hv hfits hseq
  obtain ⟨n, rfl, rfl⟩ := Shape.decodeInt_int64_eq_ok hd
  obtain ⟨method, rfl, hm⟩ := method_of_lastOf hmethod hcommand hw hfits
    (hns .method (by simp [Dialect.identitySlots])) e
  refine ⟨n, method, ⟨hv, hw⟩, ?_, ?_, hm⟩
  · exact Envelope.slot_of_lastOf .kind hkind (Envelope.alone_of_slotNames rfl) ht rfl
      (fun _ => rfl) (hns .kind (by simp [Dialect.identitySlots])) e
  · refine Envelope.slot_of_lastOf .seq hseq (Envelope.alone_of_slotNames rfl) hv hd (fun f => ?_)
      (hns .seq (by simp [Dialect.identitySlots])) e
    exact congrArg some (Int64.ofInt_toInt n)

end

namespace Codec

/-- An object may break off, go wrong or go on behind a comma. If the members before the comma name
a request and nothing behind it replaces its identity, the text is decoded to a request or an issue
of just this identity. -/
theorem decodeText_keeps_identity (c : Codec) (methods : MethodLookup) (head tail : String)
    (ms : List (String × Json)) (hhead : parseMembers (head ++ "\x7d") = .ok ms)
    (hfits : ∀ m ∈ ms, Envelope.Fits c.dialect m) (hnames : c.dialect.NamesRequest ms)
    (htail : Envelope.LeavesAlone c.dialect c.dialect.identitySlots (',' :: tail.toList)) :
    ∃ id method, c.dialect.Identifies ms id method ∧
      ((∃ params, (c.decodeText methods (head ++ "," ++ tail)).result =
          .ok (.request id method params)) ∨
        ∃ i, (c.decodeText methods (head ++ "," ++ tail)).result = .error i ∧ i.id = some id ∧
          i.method = some method ∧ i.isAnswerable = true) := by
  obtain ⟨ns, rest, hscans, he⟩ := Envelope.scanText_behind tail hhead hnames.ne_nil hfits
  have hns := htail ns rest hscans
  obtain ⟨dialect, catalog, next⟩ := c
  have howed : ∃ id method, dialect.Identifies ms id method ∧
      ((⟨dialect, catalog, next⟩ : Codec).decodeText methods (head ++ "," ++ tail)).owed? =
        some (id, method) := by
    cases dialect with
    | base =>
      obtain ⟨id, method, hidentifies, hid, hmethod⟩ :=
        Base.identity_of_names hnames hfits hns { inObject := true }
      refine ⟨id, method, hidentifies, ?_⟩
      rw [← he] at hid hmethod
      refine (Base.owed?_resolve catalog methods _ _).trans ?_
      simp [Envelope.identity?, hid, hmethod]
    | debug =>
      obtain ⟨n, method, hidentifies, hkind, hseq, hmethod⟩ :=
        Debug.identity_of_names hnames hfits hns { inObject := true }
      rw [← he] at hkind hseq hmethod
      exact ⟨.number n, method, hidentifies,
        Debug.owed?_resolve_request catalog methods hkind hseq hmethod _⟩
  obtain ⟨id, method, hidentifies, howed⟩ := howed
  exact ⟨id, method, hidentifies, Decoding.request_or_issue howed⟩

theorem decodeText_keeps_identity_truncated_arguments :
    let c : Codec := ⟨.debug, ⟨[]⟩, 1⟩
    let head := "\x7b\"type\":\"request\",\"seq\":2,\"command\":\"foo\""
    let tail := "\"arguments\":\x7b"
    let ms := [("type", .str "request"), ("seq", .int 2), ("command", .str "foo")]
    parseMembers (head ++ "\x7d") = .ok ms ∧ (∀ m ∈ ms, Envelope.Fits c.dialect m) ∧
      c.dialect.NamesRequest ms ∧
      Envelope.LeavesAlone c.dialect c.dialect.identitySlots (',' :: tail.toList) ∧
      ∃ id method, c.dialect.Identifies ms id method ∧
        ((∃ params, (c.decodeText noMethods (head ++ "," ++ tail)).result =
            .ok (.request id method params)) ∨
          ∃ i, (c.decodeText noMethods (head ++ "," ++ tail)).result = .error i ∧ i.id = some id ∧
            i.method = some method ∧ i.isAnswerable = true) := by
  intro c head tail ms
  have hhead : parseMembers (head ++ "\x7d") = .ok ms := by cbv
  have hfits : ∀ m ∈ ms, Envelope.Fits c.dialect m := by
    intro m hm slot hslot
    simp only [ms, List.mem_cons, List.not_mem_nil, or_false] at hm
    rcases hm with rfl | rfl | rfl <;> cases hslot <;> exact ⟨_, rfl⟩
  have hnames : c.dialect.NamesRequest ms := ⟨rfl, ⟨_, rfl⟩, ⟨_, rfl⟩, by decide⟩
  have htail : Envelope.LeavesAlone c.dialect c.dialect.identitySlots (',' :: tail.toList) := by
    have hname : nextKey false (',' :: tail.toList) =
        .ok (some "arguments", [':', '\x7b']) := by cbv
    have hstop : value (maxDepth - 1) ['\x7b'] = .error .eofInObject := by cbv
    rintro ns rest ⟨hpass, -⟩ slot - n hn
    cases hpass with
    | done => cases hn
    | member hkey hcolon hv _ =>
      cases hname.symm.trans hkey
      cases hcolon
      cases hstop.symm.trans hv
  exact ⟨hhead, hfits, hnames, htail,
    decodeText_keeps_identity c noMethods head tail ms hhead hfits hnames htail⟩

end Codec
end RpcPeer
