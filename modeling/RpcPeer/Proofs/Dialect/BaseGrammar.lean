import RpcPeer.Proofs.Dialect.Slots

/-! The grammar of the base dialect, told by the members of an object. -/
namespace RpcPeer
open Json

/-- A tree that an id may be read from: an integer of 64 bits or a string. -/
def Json.IsId (v : Json) : Prop := (∃ n, v = .int n ∧ inInt64 n = true) ∨ ∃ s, v = .str s

theorem Json.isId_iff {v : Json} : v.IsId ↔ ∃ id : MessageId, v = id.toJson := by
  constructor
  · rintro (⟨n, rfl, hn⟩ | ⟨s, rfl⟩)
    · obtain ⟨k, rfl⟩ := exists_toInt hn
      exact ⟨.number k, rfl⟩
    · exact ⟨.text s, rfl⟩
  · rintro ⟨id, rfl⟩
    cases id with
    | number n => exact .inl ⟨_, rfl, inInt64_toInt n⟩
    | text s => exact .inr ⟨s, rfl⟩

namespace Base

/-- The objects that are messages. -/
structure Grammatical (catalog : Catalog) (l : List (String × Json)) : Prop where
  version : ∀ v, l.lookup "jsonrpc" = some v → v = .str version
  id : ∀ v, l.lookup "id" = some v → v = .null ∨ v.IsId
  method : ∀ v, l.lookup "method" = some v → ∃ s, v = .str s
  params : ∀ name v, l.lookup "method" = some (.str name) → present (l.lookup "params") = some v →
    catalog.find? name = none ∨
      ∃ entry p, catalog.find? name = some entry ∧ entry.params.resolve v = .ok p
  outcome : l.lookup "method" = none →
    (present (l.lookup "id")).isSome ∨ (l.lookup "result").isSome ∨ (l.lookup "error").isSome
  error : ∀ v, l.lookup "method" = none → present (l.lookup "error") = some v →
    ∃ e, ResponseError.decode v = .ok e

/-- A tree that answers a method is read by the type of its results, or stays as it is if there is
no such type or it does not fit. -/
def ResultOf (catalog : Catalog) (answered : Option String) (raw : Json) (p : Payload) : Prop :=
  (∃ s, catalog.resultShape? answered = some s ∧ s.resolve raw = .ok p) ∨
    (p = .json raw ∧ ∀ s, catalog.resultShape? answered = some s → ∃ e, s.resolve raw = .error e)

/-- The message that the members of an object tell. -/
def Tells (catalog : Catalog) (methods : MethodLookup) (l : List (String × Json)) : Message → Prop
  | .request id name params =>
    l.lookup "method" = some (.str name) ∧ l.lookup "id" = some id.toJson ∧
      catalog.resolveParams name (present (l.lookup "params")) = .ok params
  | .notification name params =>
    l.lookup "method" = some (.str name) ∧ present (l.lookup "id") = none ∧
      catalog.resolveParams name (present (l.lookup "params")) = .ok params
  | .response id name outcome =>
    l.lookup "method" = none ∧ name = none ∧ present (l.lookup "id") = id.map MessageId.toJson ∧
      match outcome with
      | .error e => ∃ v, present (l.lookup "error") = some v ∧ ResponseError.decode v = .ok e
      | .result p => present (l.lookup "error") = none ∧
        match present (l.lookup "result") with
        | none => p = .absent
        | some raw => ResultOf catalog (id >>= methods) raw p

section
variable {l : List (String × Json)}

theorem fits_iff (hl : (l.map (·.1)).Nodup) :
    (∀ m ∈ l, Envelope.Fits .base m) ↔
      (∀ v, l.lookup "jsonrpc" = some v → ∃ s, v = .str s) ∧
      (∀ v, l.lookup "id" = some v → v = .null ∨ v.IsId) ∧
      ∀ v, l.lookup "method" = some v → ∃ s, v = .str s := by
  rw [Envelope.fits_iff_lookup hl]
  constructor
  · intro h
    refine ⟨fun v hv => ?_, fun v hv => ?_, fun v hv => ?_⟩
    · obtain ⟨d, hd⟩ := h "jsonrpc" .version v (by decide) hv
      exact (Shape.decode_text_eq_ok hd).imp fun _ h => h.1
    · obtain ⟨d, hd⟩ := h "id" .id v (by decide) hv
      exact (Slot.decode_id_eq_ok hd).imp (·.1) fun ⟨id, hid, _⟩ => isId_iff.mpr ⟨id, hid⟩
    · obtain ⟨d, hd⟩ := h "method" .method v (by decide) hv
      exact (Shape.decode_text_eq_ok hd).imp fun _ h => h.1
  · rintro ⟨hversion, hid, hmethod⟩ name slot v hname hv
    have hnames := Envelope.mem_slotNames hname
    cases slot with
    | version =>
      obtain rfl := List.mem_singleton.mp hnames
      obtain ⟨s, rfl⟩ := hversion v hv
      exact ⟨_, rfl⟩
    | id =>
      obtain rfl := List.mem_singleton.mp hnames
      rcases hid v hv with rfl | hv
      · exact ⟨_, rfl⟩
      · obtain ⟨id, rfl⟩ := isId_iff.mp hv
        exact ⟨_, decode_writtenId (some id)⟩
    | method =>
      obtain rfl := List.mem_singleton.mp hnames
      obtain ⟨s, rfl⟩ := hmethod v hv
      exact ⟨_, rfl⟩
    | _ => cases hnames

/-- What the scan of an object leaves. -/
structure Shown (l : List (String × Json)) (e : Envelope) : Prop where
  version : e.version.map .str = l.lookup "jsonrpc"
  id : e.id.map MessageId.toJson = present (l.lookup "id")
  method : e.method.map .str = l.lookup "method"
  params : e.takeField "params" = present (l.lookup "params")
  result : e.takeField "result" = present (l.lookup "result")
  error : e.takeField "error" = present (l.lookup "error")
  outcome : hasOutcome e = true ↔ (l.lookup "result").isSome ∨ (l.lookup "error").isSome

theorem hasOutcome_enterAll {b : Bool} :
    hasOutcome (Envelope.enterAll .base { inObject := b } l) = true ↔
      (l.lookup "result").isSome ∨ (l.lookup "error").isSome := by
  have hresult : Slot.ofKey? .base "result" = none := by decide
  have herror : Slot.ofKey? .base "error" = none := by decide
  rw [lookup_isSome_iff, lookup_isSome_iff, List.mem_map, List.mem_map]
  change ((l.filter _).any _) = true ↔ _
  simp only [List.any_filter, List.any_eq_true, Envelope.isField]
  constructor
  · rintro ⟨m, hm, h⟩
    simp only [Bool.and_eq_true, Bool.or_eq_true, beq_iff_eq] at h
    exact h.2.imp (fun h => ⟨m, hm, h⟩) fun h => ⟨m, hm, h⟩
  · rintro (⟨m, hm, h⟩ | ⟨m, hm, h⟩)
    · exact ⟨m, hm, by simp [h, hresult]⟩
    · exact ⟨m, hm, by simp [h, herror]⟩

theorem shown (b : Bool) (hl : (l.map (·.1)).Nodup) (hfits : ∀ m ∈ l, Envelope.Fits .base m) :
    Shown l (Envelope.enterAll .base { inObject := b } l) where
  version := Slot.Shows.version.eq_lookup (by decide) nofun (Envelope.alone_of_slotNames rfl) hl
    hfits rfl
  id := Slot.Shows.id.eq_present (by decide) (Envelope.alone_of_slotNames rfl) hl hfits rfl
  method := Slot.Shows.method.eq_lookup (by decide) nofun (Envelope.alone_of_slotNames rfl) hl
    hfits rfl
  params := Envelope.takeField_enterAll (by decide) rfl
  result := Envelope.takeField_enterAll (by decide) rfl
  error := Envelope.takeField_enterAll (by decide) rfl
  outcome := hasOutcome_enterAll

end

section
variable {catalog : Catalog} {methods : MethodLookup} {l : List (String × Json)} {e : Envelope}
  {m : Message} {name : String} {raw : Option Json}

theorem resolveParams_isOk_iff :
    (∃ p, catalog.resolveParams name raw = .ok p) ↔ ∀ v, raw = some v →
      catalog.find? name = none ∨
        ∃ entry p, catalog.find? name = some entry ∧ entry.params.resolve v = .ok p := by
  unfold Catalog.resolveParams
  cases raw with
  | none => simp
  | some v => cases catalog.find? name <;> simp

theorem resultOf_resolveResult {answered : Option String} {v : Json} :
    ResultOf catalog answered v (catalog.resolveResult answered (some v)).1 := by
  unfold ResultOf Catalog.resolveResult
  cases hs : catalog.resultShape? answered with
  | none => simp
  | some s => cases hv : s.resolve v <;> simp [hv]

theorem resolveCall_isOk_iff {id : Option MessageId} :
    (∃ m, resolveCall catalog e name id = .ok m) ↔
      ∃ p, catalog.resolveParams name (e.takeField "params") = .ok p := by
  unfold resolveCall
  split
  next err h => simp [h]
  next p h => simp [h]

theorem resolveResponse_isOk_iff {id : Option MessageId} :
    (∃ m, (resolveResponse catalog methods e id).result = .ok m) ↔
      (id.isSome ∨ hasOutcome e = true) ∧
        ∀ v, e.takeField "error" = some v → ∃ err, ResponseError.decode v = .ok err := by
  unfold resolveResponse
  by_cases hout : id.isNone && !hasOutcome e
  · rw [if_pos hout]
    have hnone : ¬ (id.isSome ∨ hasOutcome e = true) := by
      cases id <;> simp_all
    simp [hnone]
  · rw [if_neg hout]
    have hsome : id.isSome ∨ hasOutcome e = true := by
      cases id <;> simp_all
    cases e.takeField "error" with
    | none => simp [hsome]
    | some raw =>
      cases hraw : ResponseError.decode raw <;> simp [hsome, hraw]

/-- Which envelopes are messages. -/
theorem resolve_isOk_iff :
    (∃ m, (resolve catalog methods e none).result = .ok m) ↔
      (∀ s, e.version = some s → s = version) ∧
      match e.method with
      | some name => ∃ p, catalog.resolveParams name (e.takeField "params") = .ok p
      | none => (e.id.isSome ∨ hasOutcome e = true) ∧
          ∀ v, e.takeField "error" = some v → ∃ err, ResponseError.decode v = .ok err := by
  unfold resolve
  dsimp only
  split
  next v hv =>
    obtain ⟨hsome, hne⟩ := Option.filter_eq_some_iff.mp hv
    have hver : ¬ ∀ s, e.version = some s → s = version := fun h => by simp [h v hsome] at hne
    simp [hver]
  next hv =>
    have hver : ∀ s, e.version = some s → s = version := by
      intro s hs
      simpa [hs, Option.filter] using hv
    cases e.method with
    | some name => exact resolveCall_isOk_iff.trans (and_iff_right hver).symm
    | none => exact resolveResponse_isOk_iff.trans (and_iff_right hver).symm

theorem grammatical_iff (hl : (l.map (·.1)).Nodup) (hfits : ∀ m ∈ l, Envelope.Fits .base m)
    (h : Shown l e) :
    Grammatical catalog l ↔ ∃ m, (resolve catalog methods e none).result = .ok m := by
  obtain ⟨-, hid, hmethod⟩ := (fits_iff hl).mp hfits
  rw [resolve_isOk_iff]
  constructor
  · intro hg
    refine ⟨fun s hs => ?_, ?_⟩
    · exact Json.str.inj (hg.version (.str s) (by rw [← h.version, hs]; rfl))
    · cases hm : e.method with
      | some name =>
        refine resolveParams_isOk_iff.mpr fun v hv => hg.params name v ?_ (h.params ▸ hv)
        rw [← h.method, hm]
        rfl
      | none =>
        have hnone : l.lookup "method" = none := by rw [← h.method, hm]; rfl
        refine ⟨?_, fun v hv => hg.error v hnone (h.error ▸ hv)⟩
        rw [h.outcome]
        refine (hg.outcome hnone).imp_left fun hsome => ?_
        rwa [← h.id, Option.isSome_map] at hsome
  · rintro ⟨hver, hrest⟩
    refine ⟨fun v hv => ?_, hid, hmethod, fun name v hname hv => ?_, fun hnone => ?_,
      fun v hnone hv => ?_⟩
    · obtain ⟨s, hs, rfl⟩ := Option.map_eq_some_iff.mp (h.version.trans hv)
      rw [hver s hs]
    · obtain ⟨s, hs, he⟩ := Option.map_eq_some_iff.mp (h.method.trans hname)
      obtain rfl := Json.str.inj he
      rw [hs] at hrest
      exact resolveParams_isOk_iff.mp hrest v (h.params.trans hv)
    · rw [Option.map_eq_none_iff.mp (h.method.trans hnone)] at hrest
      rw [← h.id, Option.isSome_map, ← h.outcome]
      exact hrest.1
    · rw [Option.map_eq_none_iff.mp (h.method.trans hnone)] at hrest
      exact hrest.2 v (h.error.trans hv)

theorem tells_of_resolveCall (h : Shown l e) (hmethod : l.lookup "method" = some (.str name))
    (hok : resolveCall catalog e name e.id = .ok m) : Tells catalog methods l m := by
  unfold resolveCall at hok
  cases hparams : catalog.resolveParams name (e.takeField "params") with
  | error err =>
    rw [hparams] at hok
    cases hok
  | ok params =>
    rw [hparams] at hok
    rw [h.params] at hparams
    have hid := h.id
    revert hok hid
    cases e.id with
    | none =>
      intro hok hid
      cases hok
      exact ⟨hmethod, hid.symm, hparams⟩
    | some id =>
      intro hok hid
      cases hok
      rcases present_cases (l.lookup "id") with ⟨hnone, -⟩ | ⟨v, hv, hlookup⟩
      · cases hnone.symm.trans hid.symm
      · exact ⟨hmethod, hlookup.trans (hv.symm.trans hid.symm), hparams⟩

theorem tells_of_resolveResponse (h : Shown l e) (hnone : l.lookup "method" = none)
    (hok : (resolveResponse catalog methods e e.id).result = .ok m) :
    Tells catalog methods l m := by
  unfold resolveResponse at hok
  split at hok
  next => cases hok
  next =>
    split at hok
    next raw hraw =>
      cases hdecode : ResponseError.decode raw with
      | ok err =>
        rw [hdecode] at hok
        cases hok
        exact ⟨hnone, rfl, h.id.symm, raw, h.error.symm.trans hraw, hdecode⟩
      | error err =>
        rw [hdecode] at hok
        cases hok
    next herror =>
      cases hok
      refine ⟨hnone, rfl, h.id.symm, h.error.symm.trans herror, ?_⟩
      rw [h.result]
      cases present (l.lookup "result") with
      | none => rfl
      | some raw => exact resultOf_resolveResult

theorem tells_of_resolve (h : Shown l e) (hok : (resolve catalog methods e none).result = .ok m) :
    Tells catalog methods l m := by
  unfold resolve at hok
  dsimp only at hok
  split at hok
  next => cases hok
  next =>
    split at hok
    next name hname =>
      refine tells_of_resolveCall h ?_ hok
      rw [← h.method, hname]
      rfl
    next hname =>
      refine tells_of_resolveResponse h ?_ hok
      rw [← h.method, hname]
      rfl

end

end Base

namespace Codec

variable {l : List (String × Json)}

theorem exists_issue_of_not_fits (c : Codec) (methods : MethodLookup)
    (h : ¬ ∀ m ∈ l, Envelope.Fits c.dialect m) :
    ∃ i, (c.decodeValue methods (.obj l)).result = .error i := by
  obtain ⟨e, err, hscan, -⟩ := Envelope.scanTree_of_not_fits h { inObject := true }
  have hvalue : Envelope.scanValue c.dialect (.obj l) = (e, some (.data err)) := hscan
  obtain ⟨id, hi⟩ := resolve_stopped c methods e (.data err)
  exact ⟨_, by rw [decodeValue, hvalue, hi]⟩

theorem exists_issue_of_no_object (c : Codec) (methods : MethodLookup) {v : Json}
    (h : ∀ l, v ≠ .obj l) : ∃ i, (c.decodeValue methods v).result = .error i := by
  have hvalue : Envelope.scanValue c.dialect v =
      ({}, some (.data (v.mismatch Envelope.expected))) := by
    cases v with
    | obj l => exact absurd rfl (h l)
    | _ => rfl
  obtain ⟨id, hi⟩ := resolve_stopped c methods {} (.data (v.mismatch Envelope.expected))
  exact ⟨_, by rw [decodeValue, hvalue, hi]⟩

theorem decodeValue_base_obj (catalog : Catalog) (next : Int64) (methods : MethodLookup)
    (hl : (l.map (·.1)).Nodup) :
    ((∃ m, ((⟨.base, catalog, next⟩ : Codec).decodeValue methods (.obj l)).result = .ok m) ↔
        Base.Grammatical catalog l) ∧
      ∀ m, ((⟨.base, catalog, next⟩ : Codec).decodeValue methods (.obj l)).result = .ok m →
        Base.Tells catalog methods l m := by
  by_cases hfits : ∀ m ∈ l, Envelope.Fits .base m
  · have hshown := Base.shown true hl hfits
    have hvalue : (⟨.base, catalog, next⟩ : Codec).decodeValue methods (.obj l) =
        Base.resolve catalog methods (Envelope.enterAll .base { inObject := true } l) none := by
      rw [decodeValue, Envelope.scanValue_of_fits hfits]
      rfl
    rw [hvalue]
    exact ⟨(Base.grammatical_iff hl hfits hshown).symm, fun m => Base.tells_of_resolve hshown⟩
  · obtain ⟨i, hi⟩ := exists_issue_of_not_fits ⟨.base, catalog, next⟩ methods hfits
    rw [hi]
    refine ⟨⟨nofun, fun hg => absurd ?_ hfits⟩, nofun⟩
    exact (Base.fits_iff hl).mpr ⟨fun v hv => ⟨_, hg.version v hv⟩, hg.id, hg.method⟩

/-- The base dialect takes just the objects of its grammar, and what it makes of one is the message
that the members tell. -/
theorem decodeValue_base_iff (catalog : Catalog) (next : Int64) (methods : MethodLookup) (v : Json)
    (hv : ∀ l, v = .obj l → (l.map (·.1)).Nodup) :
    ((∃ m, ((⟨.base, catalog, next⟩ : Codec).decodeValue methods v).result = .ok m) ↔
        ∃ l, v = .obj l ∧ Base.Grammatical catalog l) ∧
      ∀ m, ((⟨.base, catalog, next⟩ : Codec).decodeValue methods v).result = .ok m →
        ∃ l, v = .obj l ∧ Base.Tells catalog methods l m := by
  by_cases hobj : ∃ l, v = .obj l
  · obtain ⟨l, rfl⟩ := hobj
    obtain ⟨hiff, htells⟩ := decodeValue_base_obj catalog next methods (hv l rfl)
    refine ⟨hiff.trans ⟨fun hg => ⟨l, rfl, hg⟩, ?_⟩, fun m hm => ⟨l, rfl, htells m hm⟩⟩
    rintro ⟨_, hl, hg⟩
    cases hl
    exact hg
  · obtain ⟨i, hi⟩ := exists_issue_of_no_object ⟨.base, catalog, next⟩ methods
      fun l hl => hobj ⟨l, hl⟩
    rw [hi]
    exact ⟨⟨nofun, fun ⟨l, hl, _⟩ => absurd ⟨l, hl⟩ hobj⟩, nofun⟩

theorem decodeValue_base_iff_both_outcomes :
    let c : Codec := ⟨.base, ⟨[]⟩, 1⟩
    let l := [("error", .null), ("id", .int 7), ("result", .arr [])]
    (∀ k, Json.obj l = .obj k → (k.map (·.1)).Nodup) ∧ Base.Grammatical ⟨[]⟩ l ∧
      ∃ m, (c.decodeValue noMethods (.obj l)).result = .ok m ∧
        Base.Tells ⟨[]⟩ noMethods l m := by
  intro c l
  have hl : ∀ k, Json.obj l = .obj k → (k.map (·.1)).Nodup := by
    rintro k hk
    cases hk
    decide
  obtain ⟨hiff, htells⟩ := decodeValue_base_iff ⟨[]⟩ 1 noMethods (.obj l) hl
  have hok : ∃ m, (c.decodeValue noMethods (.obj l)).result = .ok m := ⟨_, rfl⟩
  obtain ⟨k, hk, hg⟩ := hiff.mp hok
  cases hk
  obtain ⟨m, hm⟩ := hok
  obtain ⟨k, hk, ht⟩ := htells m hm
  cases hk
  exact ⟨hl, hg, m, hm, ht⟩

end Codec
end RpcPeer
