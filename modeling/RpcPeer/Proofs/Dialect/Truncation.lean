import RpcPeer.Proofs.Dialect.BaseGrammar
import RpcPeer.Proofs.Dialect.DebugGrammar
import RpcPeer.Proofs.Json.Broken

/-! Requests that break off, and what is left of their identity. -/
namespace RpcPeer
open Json

/-- The text `p` breaks off in a number for which the text `t`, which goes on, has `w`. -/
def BreaksIn (p t : List Char) (v w : Json) : Prop :=
  v.IsNumber ∧ ∃ depth front cs tail rest rest', p = front ++ cs ∧ t = p ++ tail ∧
    value depth cs = .ok (v, rest) ∧ value depth (cs ++ tail) = .ok (w, rest')

/-- These members have been read of a broken text. -/
structure Remains (dialect : Dialect) (p t : List Char) (ms ns : List (String × Json)) : Prop where
  fits : ∀ n ∈ ns, Envelope.Fits dialect n
  names : ns.map (·.1) <+: ms.map (·.1)
  lookup : ∀ name v, ns.lookup name = some v →
    ms.lookup name = some v ∨ ∃ w, ms.lookup name = some w ∧ BreaksIn p t v w

/-- The text breaks off in the number of this id, and what is left is the number of another id. -/
def EndsWithin (p t : String) (id other : MessageId) : Prop :=
  ∃ (n k : Int64) (front back : List Char), id = .number n ∧ other = .number k ∧ k ≠ n ∧
    printInt k.toInt <+: printInt n.toInt ∧ p.toList = front ++ printInt k.toInt ∧
    t.toList = front ++ (printInt n.toInt ++ back)

section
variable {dialect : Dialect} {p t : String} {ms ns : List (String × Json)} {name s : String}
  {v w : Json} {id other : MessageId}

theorem BreaksIn.isNumber {p t : List Char} (h : BreaksIn p t v w) : v.IsNumber ∧ w.IsNumber := by
  obtain ⟨hn, depth, front, cs, tail, rest, rest', -, -, hv, hw⟩ := h
  exact ⟨hn, isNumber_append hv hn hw⟩

theorem number_of_isNumber (h : id.toJson.IsNumber) : ∃ n, id = .number n := by
  cases id with
  | number n => exact ⟨n, rfl⟩
  | text s => exact h.elim

theorem BreaksIn.endsWithin (h : BreaksIn p.toList t.toList other.toJson id.toJson)
    (hne : other ≠ id) : EndsWithin p t id other := by
  obtain ⟨hk, hn⟩ := h.isNumber
  obtain ⟨k, rfl⟩ := number_of_isNumber hk
  obtain ⟨n, rfl⟩ := number_of_isNumber hn
  have hkn : k ≠ n := fun he => hne (congrArg _ he)
  obtain ⟨-, depth, front, cs, tail, rest, rest', hp, ht, hv, hw⟩ := h
  obtain ⟨rfl, hprefix, sp, hcs, hcs'⟩ :=
    printInt_append hv hw fun he => hkn (Int64.toInt_inj.mp he)
  refine ⟨n, k, front ++ sp, rest', rfl, rfl, hkn, hprefix, ?_, ?_⟩
  · rw [hp, hcs, List.append_assoc]
  · rw [ht, hp, List.append_assoc, hcs', List.append_assoc]

theorem Remains.nil (dialect : Dialect) (p t : List Char) (ms : List (String × Json)) :
    Remains dialect p t ms [] where
  fits := nofun
  names := List.nil_prefix
  lookup := nofun

theorem Remains.nodup {p t : List Char} (h : Remains dialect p t ms ns)
    (hl : (ms.map (·.1)).Nodup) : (ns.map (·.1)).Nodup := hl.sublist h.names.sublist

theorem Remains.lookup_text {p t : List Char} (h : Remains dialect p t ms ns)
    (hs : ns.lookup name = some (.str s)) : ms.lookup name = some (.str s) := by
  rcases h.lookup name _ hs with hin | ⟨w, -, hbreak⟩
  · exact hin
  · exact hbreak.1.elim

theorem Remains.lookup_id (h : Remains dialect p.toList t.toList ms ns)
    (hid : ms.lookup name = some id.toJson) (hother : ns.lookup name = some other.toJson) :
    other = id ∨ EndsWithin p t id other := by
  by_cases hne : other = id
  · exact .inl hne
  · rcases h.lookup name _ hother with hin | ⟨w, hw, hbreak⟩
    · refine absurd ?_ hne
      have heq : other.toJson = id.toJson := Option.some.inj (hin.symm.trans hid)
      cases other <;> cases id <;> simp_all [MessageId.toJson, Int64.toInt_inj]
    · cases hw.symm.trans hid
      exact .inr (hbreak.endsWithin hne)

/-- Whatever the scan of a broken text leaves comes from members of the whole text. -/
theorem remains_of_prefix (dialect : Dialect) (hp : p.toList <+: t.toList)
    (hms : parseMembers t = .ok ms) :
    ∃ ns b, Remains dialect p.toList t.toList ms ns ∧
      (Envelope.scanText dialect p).1 = Envelope.enterAll dialect { inObject := b } ns := by
  obtain ⟨tail, htail⟩ := hp
  obtain ⟨rest, hread, -⟩ := whole_eq_ok.mp hms
  obtain ⟨ds, hs⟩ := brace_of_object hread
  rw [object_of_brace hs] at hread
  cases hps : skipSpace p.toList with
  | nil =>
    refine ⟨[], false, .nil .., ?_⟩
    unfold Envelope.scanText
    rw [hps]
    rfl
  | cons c cs =>
    obtain ⟨sp, hsp, hc, hchars⟩ := exists_spaces hps
    -- the first character that is no blank is the brace of the whole text
    have hbrace : c :: (cs ++ tail) = '\x7b' :: ds := by
      rw [← hs, ← htail, hchars, List.append_assoc, List.cons_append, skipSpace_spaces hsp hc]
    obtain ⟨rfl, rfl⟩ := List.cons.inj hbrace
    obtain ⟨ns, rest', ⟨hpass, hfits⟩, he⟩ :=
      Envelope.exists_scans dialect (cs.length + 1) true { inObject := true } cs
    refine ⟨ns, true, ⟨hfits, names_of_passes hpass hread, fun name v hv => ?_⟩, ?_⟩
    · rcases lookup_of_passes hpass hread hv with hin | ⟨hn, w, front, cs₂, rest₂, hw, hcs, hv, hw'⟩
      · exact .inl hin
      · refine .inr ⟨w, hw, hn, _, sp ++ '\x7b' :: front, cs₂, tail, _, _, ?_, htail.symm, hv, hw'⟩
        rw [hchars, hcs, List.append_assoc, List.cons_append]
    · rw [Envelope.scanText_of_brace dialect hps, he]

end

section
variable {catalog : Catalog} {methods : MethodLookup} {e : Envelope} {err : Option ReadError}
  {x : Issue}

theorem Base.issue_of_resolveCall {method : String} {id : Option MessageId}
    (h : resolveCall catalog e method id = .error x) : x.id = id ∧ x.method = some method := by
  unfold resolveCall at h
  split at h <;> cases h
  exact ⟨rfl, rfl⟩

theorem Base.issue_of_resolveResponse {id : Option MessageId}
    (h : (resolveResponse catalog methods e id).result = .error x) :
    (x.id = none ∨ x.id = id) ∧ x.method = none := by
  unfold resolveResponse at h
  split at h
  · cases h
    exact ⟨.inl rfl, rfl⟩
  · split at h
    · split at h <;> cases h
      exact ⟨.inr rfl, rfl⟩
    · cases h

/-- An issue has the id and the method of the envelope, or lacks them. -/
theorem Base.issue_of_resolve (h : (resolve catalog methods e err).result = .error x) :
    (x.id = none ∨ x.id = e.id) ∧ (x.method = none ∨ x.method = e.method) := by
  unfold resolve at h
  split at h
  · cases h
    exact ⟨.inr rfl, .inr rfl⟩
  · split at h
    · cases h
      exact ⟨.inr rfl, .inr rfl⟩
    · split at h
      next name hname =>
        obtain ⟨hid, hmethod⟩ := issue_of_resolveCall h
        exact ⟨.inr hid, .inr (hmethod.trans hname.symm)⟩
      next hname =>
        obtain ⟨hid, hmethod⟩ := issue_of_resolveResponse h
        exact ⟨hid, .inl hmethod⟩

theorem Debug.identity_of_no_response (h : e.kind ≠ some response) :
    identity e = none ∨ identity e = e.seq.map .number := by
  unfold identity
  split_ifs with hevent hresponse
  · exact .inl rfl
  · exact absurd (eq_of_beq hresponse) h
  · exact .inr rfl

theorem Debug.issue_of_resolveRequest (h : resolveRequest catalog e = .error x) :
    (x.id = identity e ∨ x.id = e.seq.map .number) ∧ x.method = e.method := by
  unfold resolveRequest at h
  split at h
  · cases h
    exact ⟨.inl rfl, rfl⟩
  · cases h
    exact ⟨.inl rfl, rfl⟩
  next n name hseq hname =>
    split at h <;> cases h
    exact ⟨.inr (by rw [hseq]; rfl), hname.symm⟩

theorem Debug.issue_of_resolveEvent (h : resolveEvent catalog e = .error x) :
    (x.id = identity e ∨ x.id = none) ∧ x.method = e.method := by
  unfold resolveEvent at h
  split at h
  · cases h
    exact ⟨.inl rfl, rfl⟩
  next name hname =>
    split at h <;> cases h
    exact ⟨.inr rfl, hname.symm⟩

/-- An issue of anything but a response has the number and the method of the envelope, or lacks
them. -/
theorem Debug.issue_of_resolve (hkind : e.kind ≠ some response)
    (h : (resolve catalog methods e err).result = .error x) :
    (x.id = none ∨ x.id = e.seq.map .number) ∧ (x.method = none ∨ x.method = e.method) := by
  have hinvalid := identity_of_no_response hkind
  unfold resolve at h
  split at h
  · cases h
    exact ⟨hinvalid, .inr rfl⟩
  · split at h
    · cases h
      exact ⟨hinvalid, .inr rfl⟩
    next kind hk =>
      split_ifs at h with hrequest hevent hresponse
      · obtain ⟨hid, hmethod⟩ := issue_of_resolveRequest h
        exact ⟨hid.elim (· ▸ hinvalid) .inr, .inr hmethod⟩
      · obtain ⟨hid, hmethod⟩ := issue_of_resolveEvent h
        exact ⟨hid.elim (· ▸ hinvalid) .inl, .inr hmethod⟩
      · exact absurd (hk.trans (congrArg some (eq_of_beq hresponse))) hkind
      · cases h
        exact ⟨hinvalid, .inr rfl⟩

end

section
variable {catalog : Catalog} {next : Int64} {methods : MethodLookup} {ms ns : List (String × Json)}
  {id : MessageId} {method : String} {params : Payload} {x : Issue} {err : Option ReadError}

theorem eq_some_of_present {j : Option Json} {v : Json} (h : present j = some v) :
    j = some v := by
  rcases present_cases j with ⟨hnone, -⟩ | ⟨w, hw, hj⟩
  · cases hnone.symm.trans h
  · rw [hj, ← hw, h]

/-- The members of a text that is decoded to a request give its id and its method. -/
theorem Codec.names_of_request (c : Codec) (hl : (ms.map (·.1)).Nodup)
    (hevent : c.dialect = .debug → ms.lookup "event" = none)
    (h : (c.resolve methods (Envelope.scanTree c.dialect { inObject := true } ms)).result =
      .ok (.request id method params)) :
    ms.lookup c.dialect.idName = some id.toJson ∧
      ms.lookup c.dialect.methodName = some (.str method) ∧
      (c.dialect = .debug → ms.lookup "type" = some (.str Debug.request)) := by
  by_cases hfits : ∀ m ∈ ms, Envelope.Fits c.dialect m
  · have hscan : Envelope.scanTree c.dialect { inObject := true } ms =
        (Envelope.enterAll c.dialect { inObject := true } ms, none) :=
      Envelope.scanTree_of_fits hfits _
    rw [hscan] at h
    obtain ⟨dialect, catalog, next⟩ := c
    cases dialect with
    | base =>
      obtain ⟨hmethod, hid, -⟩ := Base.tells_of_resolve (Base.shown true hl hfits) h
      exact ⟨hid, hmethod, nofun⟩
    | debug =>
      have hnone := hevent rfl
      obtain ⟨htype, ⟨n, rfl, hseq⟩, hname⟩ := Debug.tells_of_resolve
        (Debug.shown true hl hfits (Debug.method_of_no_event hl hnone hfits rfl)) h
      rw [Debug.nameIn, hnone, Option.none_or] at hname
      exact ⟨hseq, hname, fun _ => htype⟩
  · obtain ⟨e, err, hscan, -⟩ := Envelope.scanTree_of_not_fits hfits { inObject := true }
    obtain ⟨i, hi⟩ := resolve_stopped c methods e (.data err)
    rw [hscan, hi] at h
    cases h

/-- The members that have been read give the identity of an issue. -/
theorem Base.names_of_issue {b : Bool} (hl : (ns.map (·.1)).Nodup)
    (hfits : ∀ n ∈ ns, Envelope.Fits .base n)
    (h : (resolve catalog methods (Envelope.enterAll .base { inObject := b } ns) err).result =
      .error x) :
    (∀ id, x.id = some id → ns.lookup "id" = some id.toJson) ∧
      ∀ method, x.method = some method → ns.lookup "method" = some (.str method) := by
  have hshown := shown b hl hfits
  obtain ⟨hid, hmethod⟩ := issue_of_resolve h
  refine ⟨fun id hx => ?_, fun method hx => ?_⟩
  · rw [hx] at hid
    refine eq_some_of_present ?_
    rw [← hshown.id, ← hid.resolve_left nofun]
    rfl
  · rw [hx] at hmethod
    rw [← hshown.method, ← hmethod.resolve_left nofun]
    rfl

theorem Debug.names_of_issue {b : Bool} (hl : (ns.map (·.1)).Nodup)
    (hfits : ∀ n ∈ ns, Envelope.Fits .debug n) (hevent : ns.lookup "event" = none)
    (hkind : ns.lookup "type" ≠ some (.str response))
    (h : (resolve catalog methods (Envelope.enterAll .debug { inObject := b } ns) err).result =
      .error x) :
    (∀ id, x.id = some id → ns.lookup "seq" = some id.toJson) ∧
      ∀ method, x.method = some method → ns.lookup "command" = some (.str method) := by
  have hshown := shown b hl hfits (method_of_no_event hl hevent hfits rfl)
  have hno : (Envelope.enterAll .debug { inObject := b } ns).kind ≠ some response := by
    intro hk
    refine hkind ?_
    rw [← hshown.kind, hk]
    rfl
  obtain ⟨hid, hmethod⟩ := issue_of_resolve hno h
  refine ⟨fun id hx => ?_, fun method hx => ?_⟩
  · rw [hx] at hid
    obtain ⟨n, hseq, rfl⟩ := Option.map_eq_some_iff.mp (hid.resolve_left nofun).symm
    rw [← hshown.seq, hseq]
    rfl
  · rw [hx] at hmethod
    have hname := hshown.method
    rw [← hmethod.resolve_left nofun, nameIn, hevent, Option.none_or] at hname
    exact hname.symm

end

namespace Codec

/-- What an issue of a broken text tells has been read before the break. -/
theorem names_of_truncated (c : Codec) {methods : MethodLookup} {p t : String}
    {ms : List (String × Json)} {x : Issue} (hp : p.toList <+: t.toList)
    (hms : parseMembers t = .ok ms) (hl : (ms.map (·.1)).Nodup)
    (hevent : c.dialect = .debug → "event" ∉ ms.map (·.1))
    (htype : c.dialect = .debug → ms.lookup "type" = some (.str Debug.request))
    (hx : (c.decodeText methods p).result = .error x) :
    ∃ ns, Remains c.dialect p.toList t.toList ms ns ∧
      (∀ id, x.id = some id → ns.lookup c.dialect.idName = some id.toJson) ∧
      ∀ method, x.method = some method → ns.lookup c.dialect.methodName = some (.str method) := by
  obtain ⟨dialect, catalog, next⟩ := c
  obtain ⟨ns, b, hremains, he⟩ := remains_of_prefix dialect hp hms
  refine ⟨ns, hremains, ?_⟩
  cases dialect with
  | base =>
    replace hx : (Base.resolve catalog methods (Envelope.scanText .base p).1
      (Envelope.scanText .base p).2).result = .error x := hx
    rw [he] at hx
    exact Base.names_of_issue (hremains.nodup hl) hremains.fits hx
  | debug =>
    replace hx : (Debug.resolve catalog methods (Envelope.scanText .debug p).1
      (Envelope.scanText .debug p).2).result = .error x := hx
    rw [he] at hx
    have hne : Debug.response ≠ Debug.request := by decide
    have hkind : ns.lookup "type" ≠ some (.str Debug.response) := by
      intro hk
      have hsame := (hremains.lookup_text hk).symm.trans (htype rfl)
      exact hne (Json.str.inj (Option.some.inj hsame))
    have hnone : ns.lookup "event" = none :=
      lookup_eq_none_of_not_mem fun h => hevent rfl (hremains.names.subset h)
    exact Debug.names_of_issue (hremains.nodup hl) hremains.fits hnone hkind hx

/-- The issue of a request that breaks off has no id and no method but those of the request, unless
the text breaks off in the number of the id: then the digits that are left may be its id. -/
theorem truncated_request_identity (c : Codec) (methods : MethodLookup) (t p : String)
    (hp : p.toList <+: t.toList) (ms : List (String × Json)) (hms : parseMembers t = .ok ms)
    (hl : (ms.map (·.1)).Nodup) (hevent : c.dialect = .debug → "event" ∉ ms.map (·.1))
    (id : MessageId) (method : String) (params : Payload)
    (ht : (c.decodeText methods t).result = .ok (.request id method params)) (x : Issue)
    (hx : (c.decodeText methods p).result = .error x) :
    (x.method = none ∨ x.method = some method) ∧
      (x.id = none ∨ x.id = some id ∨ ∃ other, x.id = some other ∧ EndsWithin p t id other) := by
  rw [decodeText_of_parseMembers hms] at ht
  have hnone : c.dialect = .debug → ms.lookup "event" = none := fun hc =>
    lookup_eq_none_of_not_mem (hevent hc)
  obtain ⟨hid, hmethod, htype⟩ := c.names_of_request hl hnone ht
  obtain ⟨ns, hremains, hids, hmethods⟩ := c.names_of_truncated hp hms hl hevent htype hx
  constructor
  · cases hname : x.method with
    | none => exact .inl rfl
    | some name =>
      have hsame := (hremains.lookup_text (hmethods name hname)).symm.trans hmethod
      exact .inr (congrArg some (Json.str.inj (Option.some.inj hsame)))
  · cases hother : x.id with
    | none => exact .inl rfl
    | some other =>
      rcases hremains.lookup_id hid (hids other hother) with rfl | hends
      · exact .inr (.inl rfl)
      · exact .inr (.inr ⟨other, rfl, hends⟩)

/-- The text breaks off behind the first digit of the id. -/
theorem truncated_request_identity_cut_number :
    let c : Codec := ⟨.base, ⟨[]⟩, 1⟩
    let t := "\x7b\"jsonrpc\":\"2.0\",\"method\":\"any\",\"id\":12\x7d"
    let p := "\x7b\"jsonrpc\":\"2.0\",\"method\":\"any\",\"id\":1"
    let ms := [("jsonrpc", .str "2.0"), ("method", .str "any"), ("id", .int 12)]
    p.toList <+: t.toList ∧ parseMembers t = .ok ms ∧ (ms.map (·.1)).Nodup ∧
      (c.decodeText noMethods t).result = .ok (.request (.number 12) "any" .absent) ∧
      ∃ x, (c.decodeText noMethods p).result = .error x ∧
        (x.method = none ∨ x.method = some "any") ∧
        (x.id = none ∨ x.id = some (.number 12) ∨
          ∃ other, x.id = some other ∧ EndsWithin p t (.number 12) other) := by
  intro c t p ms
  have hp : p.toList <+: t.toList := by decide
  have hms : parseMembers t = .ok ms := by cbv
  have hl : (ms.map (·.1)).Nodup := by decide
  have ht : (c.decodeText noMethods t).result = .ok (.request (.number 12) "any" .absent) := by
    rw [decodeText_of_parseMembers hms]
    rfl
  have hx : ∃ x, (c.decodeText noMethods p).result = .error x := ⟨_, by cbv⟩
  obtain ⟨x, hx⟩ := hx
  have hevent : c.dialect = .debug → "event" ∉ ms.map (·.1) := fun _ => by decide
  exact ⟨hp, hms, hl, ht, x, hx, truncated_request_identity c noMethods t p hp ms hms hl hevent
    (.number 12) "any" .absent ht x hx⟩

/-- A request that breaks off within its id is answered under another id. -/
theorem truncated_request_answered :
    let c : Codec := ⟨.base, ⟨[]⟩, 1⟩
    let t := "\x7b\"jsonrpc\":\"2.0\",\"method\":\"any\",\"id\":12\x7d"
    let p := "\x7b\"jsonrpc\":\"2.0\",\"method\":\"any\",\"id\":1"
    (∃ ms, parseMembers t = .ok ms ∧ (ms.map (·.1)).Nodup) ∧ p.toList <+: t.toList ∧ p ≠ t ∧
      (c.decodeText noMethods t).result = .ok (.request (.number 12) "any" .absent) ∧
      ∃ x, (c.decodeText noMethods p).result = .error x ∧ x.id = some (.number 1) ∧
        x.method = some "any" ∧ x.isAnswerable = true := by
  intro c t p
  have hms : parseMembers t = .ok [("jsonrpc", .str "2.0"), ("method", .str "any"),
    ("id", .int 12)] := by cbv
  refine ⟨⟨_, hms, by decide⟩, by decide, by decide, ?_, ?_⟩
  · rw [decodeText_of_parseMembers hms]
    rfl
  · have hscan : Envelope.scanText .base p =
        (Base.versioned (some (.number 1)) (some "any") [], some .eofInObject) := by cbv
    have hx : (c.decodeText noMethods p).result = .error
        (Envelope.issueOf (Envelope.scanText .base p).1 .eofInObject (some (.number 1))) := by
      rw [decodeText, hscan]
      rfl
    exact ⟨_, hx, rfl, by rw [hscan]; rfl, by rw [hscan]; rfl⟩

end Codec
end RpcPeer
