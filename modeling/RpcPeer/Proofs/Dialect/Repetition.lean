import RpcPeer.Proofs.Dialect.Slots

/-! Keys that come more than once, in a text and in its tree. -/
namespace RpcPeer
open Json

namespace Json
variable {name : String} {ms : List (String × Json)}

theorem lookup_foldl (name : String) (acc ms : List (String × Json)) :
    (ms.foldl (fun acc (k, v) => insertMember k v acc) acc).lookup name =
      (Envelope.lastOf ms name).or (acc.lookup name) := by
  induction ms generalizing acc with
  | nil => rfl
  | cons m ms ih =>
    have hlast : Envelope.lastOf (m :: ms) name =
        (Envelope.lastOf ms name).or ([m].lookup name) := by
      rw [Envelope.lastOf, List.reverse_cons, List.lookup_append, Envelope.lastOf]
    have hone : [m].lookup name = if name = m.1 then some m.2 else none := lookup_cons_eq ..
    rw [List.foldl_cons, ih, hlast, Option.or_assoc, lookup_insertMember, hone]
    split <;> rfl

/-- Of equal names the last one is in the object. -/
theorem lookup_arrange (name : String) (ms : List (String × Json)) :
    (arrange ms).lookup name = Envelope.lastOf ms name := by
  rw [arrange, lookup_foldl]
  exact Option.or_none

theorem mem_names_arrange : name ∈ (arrange ms).map (·.1) ↔ name ∈ ms.map (·.1) := by
  rw [← lookup_isSome_iff, lookup_arrange, Envelope.lastOf, lookup_isSome_iff, List.map_reverse,
    List.mem_reverse]

end Json

namespace Envelope

/-- The members that go to a slot. -/
def scalars (dialect : Dialect) (ms : List (String × Json)) : List (String × Json) :=
  ms.filter fun m => !isField dialect m

/-- The names of payloads in either dialect. -/
def payloadKeys : List String := ["params", "result", "error", "arguments", "body"]

/-- Only payloads come more than once, and in the debug dialect not both `command` and `event` are
there. -/
def RepeatsPayloads (dialect : Dialect) (ms : List (String × Json)) : Prop :=
  (∀ name ∈ ms.map (·.1), 1 < (ms.map (·.1)).count name → name ∈ payloadKeys) ∧
    (dialect = .debug → ¬ ("command" ∈ ms.map (·.1) ∧ "event" ∈ ms.map (·.1)))

instance (dialect : Dialect) (ms : List (String × Json)) : Decidable (RepeatsPayloads dialect ms) :=
  inferInstanceAs (Decidable (_ ∧ _))

/-- The same slots are filled with the same values, there are fields of the same names, and these
fields have the same values. -/
structure Alike (dialect : Dialect) (fields : List String) (ms ns : List (String × Json)) :
    Prop where
  scalars : (scalars dialect ms).Perm (scalars dialect ns)
  names : ∀ name, name ∈ ms.map (·.1) ↔ name ∈ ns.map (·.1)
  payloads : ∀ name ∈ fields, present (ms.lookup name) = present (ns.lookup name)

section
variable {dialect : Dialect} {name : String} {e : Envelope} {fields : List String}
  {ms ns : List (String × Json)}

theorem ofKey?_of_payloadKeys (dialect : Dialect) (h : name ∈ payloadKeys) :
    Slot.ofKey? dialect name = none := by
  simp only [payloadKeys, List.mem_cons, List.not_mem_nil, or_false] at h
  rcases h with rfl | rfl | rfl | rfl | rfl <;> cases dialect <;> decide

theorem reads_subset (e : Envelope) (dialect : Dialect) : e.reads dialect ⊆ payloadKeys := by
  cases dialect with
  | base =>
    simp only [reads]
    split_ifs <;> decide
  | debug =>
    simp only [reads]
    split_ifs <;> decide

theorem mem_scalars {m : String × Json} :
    m ∈ scalars dialect ms ↔ m ∈ ms ∧ Slot.ofKey? dialect m.1 ≠ none := by
  rw [scalars, List.mem_filter, isField, Bool.not_eq_true', Option.isNone_eq_false_iff,
    Option.isSome_iff_ne_none]

theorem fits_iff_scalars (dialect : Dialect) (ms : List (String × Json)) :
    (∀ m ∈ ms, Fits dialect m) ↔ ∀ m ∈ scalars dialect ms, Fits dialect m := by
  constructor
  · exact fun h m hm => h m (mem_scalars.mp hm).1
  · intro h m hm slot hslot
    exact h m (mem_scalars.mpr ⟨hm, by simp [hslot]⟩) slot hslot

/-- Fields leave the slots alone. -/
theorem foldl_enter_scalars (e : Envelope) (ms : List (String × Json)) :
    (scalars dialect ms).foldl (enter dialect) e = ms.foldl (enter dialect) e := by
  induction ms generalizing e with
  | nil => rfl
  | cons m ms ih =>
    rw [scalars, List.filter_cons, List.foldl_cons]
    cases hm : Slot.ofKey? dialect m.1 with
    | none =>
      have henter : enter dialect e m = e := by simp only [enter, hm]
      have hfield : isField dialect m = true := by rw [isField, hm]; rfl
      rw [henter, hfield]
      exact ih e
    | some slot =>
      have hfield : isField dialect m = false := by rw [isField, hm]; rfl
      rw [hfield]
      exact ih (enter dialect e m)

theorem lookup_scalars (hname : Slot.ofKey? dialect name ≠ none) :
    (scalars dialect ms).lookup name = ms.lookup name := by
  apply lookup_filter (p := fun key => !(Slot.ofKey? dialect key).isNone)
  rw [Bool.not_eq_true', Option.isNone_eq_false_iff, Option.isSome_iff_ne_none]
  exact hname

/-- Where no scalar comes twice, the object keeps all of them. -/
theorem scalars_arrange_perm (h : ((scalars dialect ms).map (·.1)).Nodup) :
    (scalars dialect (arrange ms)).Perm (scalars dialect ms) := by
  have harrange : ((scalars dialect (arrange ms)).map (·.1)).Nodup :=
    (inOrder_arrange ms).nodup.sublist (List.filter_sublist.map _)
  have hreverse : ((scalars dialect ms.reverse).map (·.1)).Nodup := by
    rw [scalars, List.filter_reverse, List.map_reverse]
    exact List.nodup_reverse.mpr h
  rw [List.perm_ext_iff_of_nodup harrange.of_map h.of_map]
  intro ⟨name, v⟩
  by_cases hname : Slot.ofKey? dialect name = none
  · simp [mem_scalars, hname]
  rw [← lookup_eq_some_iff_mem harrange, lookup_scalars hname, lookup_arrange, lastOf,
    ← lookup_scalars hname, lookup_eq_some_iff_mem hreverse, mem_scalars, mem_scalars,
    List.mem_reverse]

theorem RepeatsPayloads.distinct (h : RepeatsPayloads dialect ms) :
    Distinct dialect (scalars dialect ms) := by
  obtain ⟨honce, hdebug⟩ := h
  have hsub : ((scalars dialect ms).map (·.1)).Sublist (ms.map (·.1)) := List.filter_sublist.map _
  constructor
  · rw [List.nodup_iff_count_le_one]
    intro name
    by_contra hcount
    have hmany : 1 < ((scalars dialect ms).map (·.1)).count name := by omega
    have hmem := List.count_pos_iff.mp (Nat.zero_lt_of_lt hmany)
    have hkey := honce name (hsub.subset hmem) (hmany.trans_le (hsub.count_le name))
    obtain ⟨m, hm, rfl⟩ := List.mem_map.mp hmem
    exact (mem_scalars.mp hm).2 (ofKey?_of_payloadKeys dialect hkey)
  · exact fun hd hboth => hdebug hd ⟨hsub.subset hboth.1, hsub.subset hboth.2⟩

theorem alike_arrange (h : ((scalars dialect ms).map (·.1)).Nodup)
    (hsame : ∀ name ∈ fields, present (ms.lookup name) = present (lastOf ms name)) :
    Alike dialect fields ms (arrange ms) where
  scalars := (scalars_arrange_perm h).symm
  names _ := mem_names_arrange.symm
  payloads name hname := by rw [lookup_arrange, hsame name hname]

theorem alike_arrange_reverse (h : ((scalars dialect ms).map (·.1)).Nodup) :
    Alike dialect fields ms (arrange ms.reverse) where
  scalars := by
    have hreverse : (scalars dialect ms.reverse).Perm (scalars dialect ms) := by
      rw [scalars, List.filter_reverse]
      exact List.reverse_perm _
    have hnodup := (hreverse.map (·.1)).nodup_iff.mpr h
    exact hreverse.symm.trans (scalars_arrange_perm hnodup).symm
  names _ := by rw [mem_names_arrange, List.map_reverse, List.mem_reverse]
  payloads _ _ := by rw [lookup_arrange, lastOf, List.reverse_reverse]

theorem takeField_withFields (e : Envelope) (hname : Slot.ofKey? dialect name = none) :
    (e.withFields (ms.filter (isField dialect))).takeField name = present (ms.lookup name) := by
  rw [takeField_eq, ← lookup_filter_isField (l := ms) hname]
  rfl

theorem hasOutcome_iff (e : Envelope) :
    Base.hasOutcome (e.withFields (ms.filter (isField dialect))) = true ↔
      "result" ∈ ms.map (·.1) ∨ "error" ∈ ms.map (·.1) := by
  have hresult : Slot.ofKey? dialect "result" = none := ofKey?_of_payloadKeys dialect (by decide)
  have herror : Slot.ofKey? dialect "error" = none := ofKey?_of_payloadKeys dialect (by decide)
  change ((ms.filter (isField dialect)).any fun m => m.1 == "result" || m.1 == "error") = true ↔ _
  simp only [List.any_eq_true, List.mem_filter, Bool.or_eq_true, beq_iff_eq, List.mem_map]
  constructor
  · rintro ⟨m, ⟨hm, -⟩, hname | hname⟩
    · exact .inl ⟨m, hm, hname⟩
    · exact .inr ⟨m, hm, hname⟩
  · rintro (⟨m, hm, hname⟩ | ⟨m, hm, hname⟩)
    · exact ⟨m, ⟨hm, by rw [isField, hname, hresult]; rfl⟩, .inl hname⟩
    · exact ⟨m, ⟨hm, by rw [isField, hname, herror]; rfl⟩, .inr hname⟩

theorem Alike.fits (h : Alike dialect fields ms ns) :
    (∀ m ∈ ms, Fits dialect m) ↔ ∀ n ∈ ns, Fits dialect n := by
  rw [fits_iff_scalars dialect ms, fits_iff_scalars dialect ns]
  simp only [h.scalars.mem_iff]

end
end Envelope

namespace Codec
open Envelope
variable {c : Codec} {methods : MethodLookup} {ms ns : List (String × Json)}

theorem resolve_alike (hd : Distinct c.dialect (scalars c.dialect ms))
    (h : Alike c.dialect ((scanTree c.dialect { inObject := true } ms).1.reads c.dialect) ms ns)
    (hms : ∀ m ∈ ms, Fits c.dialect m) :
    c.resolve methods (scanTree c.dialect { inObject := true } ms) =
      c.resolve methods (scanTree c.dialect { inObject := true } ns) := by
  have hpayloads := h.payloads
  rw [scanTree_of_fits hms, List.nil_append] at hpayloads
  rw [scanTree_of_fits hms, scanTree_of_fits (h.fits.mp hms), ← foldl_enter_scalars _ ns,
    ← foldl_enter_perm hd.apart h.scalars, foldl_enter_scalars, List.nil_append, List.nil_append]
  apply resolve_congr
  · intro name hname
    have hfield := ofKey?_of_payloadKeys c.dialect (reads_subset _ _ hname)
    rw [takeField_withFields _ hfield, takeField_withFields _ hfield, hpayloads name hname]
  · rw [Bool.eq_iff_iff, hasOutcome_iff, hasOutcome_iff, h.names, h.names]

/-- A text and an object that are alike are read alike. -/
theorem agree_of_alike (hd : Distinct c.dialect (scalars c.dialect ms))
    (h : Alike c.dialect ((scanTree c.dialect { inObject := true } ms).1.reads c.dialect) ms ns) :
    (c.resolve methods (scanTree c.dialect { inObject := true } ms)).Agree
      (c.resolve methods (scanTree c.dialect { inObject := true } ns)) := by
  by_cases hms : ∀ m ∈ ms, Fits c.dialect m
  · rw [resolve_alike hd h hms, scanTree_of_fits (h.fits.mp hms)]
    exact agree_refl
  · exact agree_of_not_fits hms (h.fits.not.mp hms)

/-- Of a payload that comes more than once in a text the first one is read, as if the text were one
of the object in which the first of equal names counts; the tree that the text is parsed to has the
last one. The two are read alike if the payloads that the message reads are first what they are
last. -/
theorem decodeText_repeated (c : Codec) (methods : MethodLookup) (text : String)
    (l : List (String × Json)) (h : parse text = .ok (obj l)) :
    ∃ ms, parseMembers text = .ok ms ∧ ofMembers ms = obj l ∧
      (RepeatsPayloads c.dialect ms →
        let firsts := ofMembers ms.reverse
        (∀ name, firsts.member? name = ms.lookup name ∧ (obj l).member? name = lastOf ms name) ∧
        (c.decodeText methods text).Agree (c.decodeValue methods firsts) ∧
        ((∀ m ∈ ms, Fits c.dialect m) →
          c.decodeText methods text = c.decodeValue methods firsts) ∧
        ((∀ name ∈ (scanText c.dialect text).1.reads c.dialect,
            present (ms.lookup name) = present (lastOf ms name)) →
          (c.decodeText methods text).Agree (c.decodeValue methods (obj l)) ∧
          ((∀ m ∈ ms, Fits c.dialect m) →
            c.decodeText methods text = c.decodeValue methods (obj l)))) := by
  obtain ⟨ms, hms, htree⟩ := exists_parseMembers h
  refine ⟨ms, hms, htree, fun hrepeats => ?_⟩
  have hd := hrepeats.distinct
  have hfirsts : ∀ fields, Alike c.dialect fields ms (arrange ms.reverse) :=
    fun _ => alike_arrange_reverse hd.1
  rw [decodeText_of_parseMembers hms, scanText_of_parseMembers hms, ← htree]
  refine ⟨fun name => ⟨?_, lookup_arrange name ms⟩, agree_of_alike hd (hfirsts _),
    resolve_alike hd (hfirsts _), fun hsame => ?_⟩
  · have hlast := lookup_arrange name ms.reverse
    rwa [lastOf, List.reverse_reverse] at hlast
  · have hlasts := alike_arrange hd.1 hsame
    exact ⟨agree_of_alike hd hlasts, resolve_alike hd hlasts⟩

/-- The first `params` is `null`; and results that a request does not read. -/
theorem decodeText_repeated_null_first :
    let c : Codec := ⟨.base, ⟨[]⟩, 1⟩
    let text := "\x7b\"id\":5,\"params\":null,\"method\":\"go\",\"params\":[7]\x7d"
    let ms := [("id", int 5), ("params", null), ("method", str "go"), ("params", arr [int 7])]
    let text' := "\x7b\"id\":5,\"result\":1,\"method\":\"go\",\"result\":2\x7d"
    let ms' := [("id", int 5), ("result", int 1), ("method", str "go"), ("result", int 2)]
    parse text = .ok (ofMembers ms) ∧ RepeatsPayloads .base ms ∧
      c.decodeText noMethods text = c.decodeValue noMethods (ofMembers ms.reverse) ∧
      (c.decodeText noMethods text).result = .ok (.request (.number 5) "go" .absent) ∧
      parse text' = .ok (ofMembers ms') ∧ RepeatsPayloads .base ms' ∧
      c.decodeText noMethods text' = c.decodeValue noMethods (ofMembers ms') := by
  intro c text ms text' ms'
  have hms : parseMembers text = .ok ms := by cbv
  have hms' : parseMembers text' = .ok ms' := by cbv
  have hrepeats : RepeatsPayloads .base ms := by decide
  have hrepeats' : RepeatsPayloads .base ms' := by decide
  have hfits : ∀ m ∈ ms, Fits .base m := fits_of_scanTree (e := {}) rfl
  have hfits' : ∀ m ∈ ms', Fits .base m := fits_of_scanTree (e := {}) rfl
  have hparse : parse text = .ok (ofMembers ms) := parse_of_parseMembers hms
  have hparse' : parse text' = .ok (ofMembers ms') := parse_of_parseMembers hms'
  obtain ⟨ns, hns, -, hall⟩ := decodeText_repeated c noMethods text _ hparse
  obtain rfl : ns = ms := Except.ok.inj (hns.symm.trans hms)
  obtain ⟨-, -, hfirsts, -⟩ := hall hrepeats
  obtain ⟨ns', hns', htree', hall'⟩ := decodeText_repeated c noMethods text' _ hparse'
  obtain rfl : ns' = ms' := Except.ok.inj (hns'.symm.trans hms')
  obtain ⟨-, -, -, hsame⟩ := hall' hrepeats'
  have hreads : ∀ name ∈ (scanText c.dialect text').1.reads c.dialect,
      present (ms'.lookup name) = present (lastOf ms' name) := by
    rw [scanText_of_parseMembers hms']
    intro name hname
    have hparams : name = "params" := List.mem_singleton.mp hname
    rw [hparams]
    rfl
  refine ⟨hparse, hrepeats, hfirsts hfits, ?_, hparse', hrepeats', ?_⟩
  · rw [decodeText_of_parseMembers hms]
    rfl
  · exact (hsame hreads).2 hfits'

/-- Where the first is another than the last, text and tree are two messages. -/
theorem repeated_params_differ :
    let c : Codec := ⟨.base, ⟨[]⟩, 1⟩
    let text := "\x7b\"jsonrpc\":\"2.0\",\"method\":\"any\",\"params\":1,\"params\":2\x7d"
    let ms := [("jsonrpc", str "2.0"), ("method", str "any"), ("params", int 1), ("params", int 2)]
    parseMembers text = .ok ms ∧ RepeatsPayloads .base ms ∧
      (c.decodeText noMethods text).result = .ok (.notification "any" (.json (int 1))) ∧
      (c.decodeValue noMethods (ofMembers ms)).result =
        .ok (.notification "any" (.json (int 2))) ∧
      ¬ ∀ (c : Codec) (methods : MethodLookup) (text : String) (ms : List (String × Json)),
        parseMembers text = .ok ms → RepeatsPayloads c.dialect ms →
          (c.decodeText methods text).Agree (c.decodeValue methods (ofMembers ms)) := by
  intro c text ms
  have hms : parseMembers text = .ok ms := by cbv
  have hrepeats : RepeatsPayloads .base ms := by decide
  have htext : (c.decodeText noMethods text).result =
      .ok (.notification "any" (.json (int 1))) := by
    rw [decodeText_of_parseMembers hms]
    rfl
  have htree : (c.decodeValue noMethods (ofMembers ms)).result =
      .ok (.notification "any" (.json (int 2))) := rfl
  refine ⟨hms, hrepeats, htext, htree, fun hall => ?_⟩
  rcases hall c noMethods text ms hms hrepeats with ⟨m, hm, hm'⟩ | ⟨i, j, hi, -⟩
  · have hone := Except.ok.inj (htext.symm.trans hm)
    have htwo := Except.ok.inj (htree.symm.trans hm')
    cases hone.trans htwo.symm
  · cases htext.symm.trans hi

end Codec
end RpcPeer
