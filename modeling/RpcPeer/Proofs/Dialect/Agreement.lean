import Mathlib
import RpcPeer.Proofs.Dialect.Order

/-! Decoding a text, member by member, and decoding the tree it is parsed to. -/
namespace RpcPeer
open Json

/-- The fields that are read once the scalars are known. -/
def Envelope.reads (e : Envelope) : Dialect → List String
  | .base =>
    if (e.version.filter (· != Base.version)).isSome then []
    else if e.method.isSome then ["params"]
    else if (e.takeField "error").isSome then ["error"]
    else ["error", "result"]
  | .debug =>
    if e.kind == some Debug.request then
      if e.seq.isSome && e.method.isSome then ["arguments"] else []
    else if e.kind == some Debug.event then
      if e.method.isSome then ["body"] else []
    else if e.kind == some Debug.response then
      if e.requestSeq.isSome then ["body"] else []
    else []

section
variable {e : Envelope} {l l' : List (String × Json)}

theorem Envelope.takeField_perm (hl : (l.map (·.1)).Nodup) (hp : l.Perm l') (name : String) :
    (e.withFields l).takeField name = (e.withFields l').takeField name := by
  have hlookup : (e.withFields l).fields.lookup name = (e.withFields l').fields.lookup name :=
    lookup_congr hl hp name
  rw [Envelope.takeField, hlookup, ← Envelope.takeField]

theorem Base.hasOutcome_perm (hp : l.Perm l') :
    hasOutcome (e.withFields l) = hasOutcome (e.withFields l') := hp.any_eq

variable (catalog : Catalog) (methods : MethodLookup)

/-- The scalars, the fields that are read and whether there is an outcome decide. -/
theorem Base.resolve_congr
    (htake : ∀ name ∈ (e.withFields l).reads .base,
      (e.withFields l).takeField name = (e.withFields l').takeField name)
    (hout : hasOutcome (e.withFields l) = hasOutcome (e.withFields l')) :
    resolve catalog methods (e.withFields l) none =
      resolve catalog methods (e.withFields l') none := by
  have hversion : ∀ fields, (e.withFields fields).version = e.version := fun _ => rfl
  have hmethod : ∀ fields, (e.withFields fields).method = e.method := fun _ => rfl
  have hid : ∀ fields, (e.withFields fields).id = e.id := fun _ => rfl
  simp only [Envelope.reads, hversion, hmethod] at htake
  simp only [resolve, hversion, hmethod, hid]
  cases hv : e.version.filter (· != version) with
  | some v => rfl
  | none =>
    cases hm : e.method with
    | some method =>
      have hparams := htake "params" (by simp [hv, hm])
      simp only [resolveCall, hparams]
    | none =>
      have hread : "error" ∈ if ((e.withFields l).takeField "error").isSome then ["error"]
          else ["error", "result"] := by split <;> simp
      have herror := htake "error" (by rw [hv, hm]; exact hread)
      simp only [resolveResponse, hout, herror]
      cases ht : (e.withFields l').takeField "error" with
      | some raw => rfl
      | none =>
        have hresult := htake "result" (by simp [hv, hm, herror, ht])
        simp only [hresult]

theorem Debug.resolve_congr
    (htake : ∀ name ∈ (e.withFields l).reads .debug,
      (e.withFields l).takeField name = (e.withFields l').takeField name) :
    resolve catalog methods (e.withFields l) none =
      resolve catalog methods (e.withFields l') none := by
  have hkind : ∀ fields, (e.withFields fields).kind = e.kind := fun _ => rfl
  have hseq : ∀ fields, (e.withFields fields).seq = e.seq := fun _ => rfl
  have hmethod : ∀ fields, (e.withFields fields).method = e.method := fun _ => rfl
  have hrequestSeq : ∀ fields, (e.withFields fields).requestSeq = e.requestSeq := fun _ => rfl
  have hinvalid : ∀ fields message,
      invalid (e.withFields fields) message = invalid e message := fun _ _ => rfl
  simp only [Envelope.reads, hkind, hseq, hmethod, hrequestSeq] at htake
  simp only [resolve, hkind, hinvalid]
  cases hk : e.kind with
  | none => rfl
  | some kind =>
    simp only [hk, Option.some_beq_some] at htake
    dsimp only
    split_ifs with hrequest hevent hresponse
    · simp only [resolveRequest, hseq, hmethod, hinvalid]
      cases hs : e.seq with
      | none => rfl
      | some seq =>
        cases hm : e.method with
        | none => rfl
        | some method =>
          have harguments := htake "arguments" (by simp [hrequest, hs, hm])
          simp only [harguments]
    · simp only [resolveEvent, hmethod, hinvalid]
      cases hm : e.method with
      | none => rfl
      | some method =>
        have hbody := htake "body" (by simp [hrequest, hevent, hm])
        simp only [hbody]
    · simp only [resolveResponse, hrequestSeq, hmethod, hinvalid]
      cases hs : e.requestSeq with
      | none => rfl
      | some seq =>
        have hbody := htake "body" (by simp [hrequest, hevent, hresponse, hs])
        simp only [hbody]
        rfl
    · rfl

variable {catalog methods} {i : Issue}

theorem Base.code_of_resolveCall {method : String} {id : Option MessageId}
    (h : resolveCall catalog e method id = .error i) : i.code = .invalidParams := by
  unfold resolveCall at h
  split at h
  · cases h
    rfl
  · cases h

theorem Base.code_of_resolveResponse {id : Option MessageId}
    (h : (resolveResponse catalog methods e id).result = .error i) : i.code = .invalidRequest := by
  unfold resolveResponse at h
  split at h
  · cases h
    rfl
  · split at h
    · split at h <;> cases h
      rfl
    · cases h

/-- A scan that was not stopped leads to no parse error. -/
theorem Base.code_of_resolve (h : (resolve catalog methods e none).result = .error i) :
    i.code = .invalidRequest ∨ i.code = .invalidParams := by
  unfold resolve at h
  split at h
  · contradiction
  · split at h
    · cases h
      exact .inl rfl
    · split at h
      · exact .inr (code_of_resolveCall h)
      · exact .inl (code_of_resolveResponse h)

theorem Debug.code_of_resolveRequest (h : resolveRequest catalog e = .error i) :
    i.code = .invalidRequest ∨ i.code = .invalidParams := by
  unfold resolveRequest at h
  split at h
  · cases h
    exact .inl rfl
  · cases h
    exact .inl rfl
  · split at h <;> cases h
    exact .inr rfl

theorem Debug.code_of_resolveEvent (h : resolveEvent catalog e = .error i) :
    i.code = .invalidRequest ∨ i.code = .invalidParams := by
  unfold resolveEvent at h
  split at h
  · cases h
    exact .inl rfl
  · split at h <;> cases h
    exact .inr rfl

theorem Debug.code_of_resolveResponse
    (h : (resolveResponse catalog methods e).result = .error i) : i.code = .invalidRequest := by
  unfold resolveResponse at h
  split at h
  · cases h
    rfl
  · dsimp only at h
    split at h <;> cases h

theorem Debug.code_of_resolve (h : (resolve catalog methods e none).result = .error i) :
    i.code = .invalidRequest ∨ i.code = .invalidParams := by
  unfold resolve at h
  dsimp only at h
  split at h
  · cases h
    exact .inl rfl
  · split_ifs at h
    · exact code_of_resolveRequest h
    · exact code_of_resolveEvent h
    · exact .inl (code_of_resolveResponse h)
    · cases h
      exact .inl rfl

end

/-- Both give the same message, or both report an error of the same code, which is no parse
error. -/
def Decoding.Agree (a b : Decoding) : Prop :=
  (∃ m, a.result = .ok m ∧ b.result = .ok m) ∨
    ∃ i j, a.result = .error i ∧ b.result = .error j ∧ i.code = j.code ∧ i.code ≠ .parseError

namespace Codec
variable {c : Codec} {methods : MethodLookup}

theorem resolve_congr {e : Envelope} {l l' : List (String × Json)}
    (htake : ∀ name ∈ (e.withFields l).reads c.dialect,
      (e.withFields l).takeField name = (e.withFields l').takeField name)
    (hout : Base.hasOutcome (e.withFields l) = Base.hasOutcome (e.withFields l')) :
    c.resolve methods (e.withFields l, none) = c.resolve methods (e.withFields l', none) := by
  unfold resolve
  cases hc : c.dialect with
  | base =>
    rw [hc] at htake
    exact Base.resolve_congr c.catalog methods htake hout
  | debug =>
    rw [hc] at htake
    exact Debug.resolve_congr c.catalog methods htake

theorem resolve_perm {e : Envelope} {l l' : List (String × Json)} (hl : (l.map (·.1)).Nodup)
    (hp : l.Perm l') :
    c.resolve methods (e.withFields l, none) = c.resolve methods (e.withFields l', none) :=
  resolve_congr (fun name _ => Envelope.takeField_perm hl hp name) (Base.hasOutcome_perm hp)

theorem code_of_resolve {e : Envelope} {i : Issue}
    (h : (c.resolve methods (e, none)).result = .error i) :
    i.code = .invalidRequest ∨ i.code = .invalidParams := by
  unfold resolve at h
  split at h
  · exact Base.code_of_resolve h
  · exact Debug.code_of_resolve h

/-- Where the scan was stopped, nothing but the issue is left. -/
theorem resolve_stopped (c : Codec) (methods : MethodLookup) (e : Envelope) (err : ReadError) :
    ∃ id, (c.resolve methods (e, some err)).result = .error (e.issueOf err id) := by
  unfold resolve
  split
  · exact ⟨_, rfl⟩
  · exact ⟨_, rfl⟩

theorem agree_refl {e : Envelope} :
    (c.resolve methods (e, none)).Agree (c.resolve methods (e, none)) := by
  cases h : (c.resolve methods (e, none)).result with
  | ok m => exact .inl ⟨m, h, h⟩
  | error i =>
    refine .inr ⟨i, i, h, h, rfl, fun hcode => ?_⟩
    rcases code_of_resolve h with hi | hi <;> rw [hi] at hcode <;> cases hcode

/-- Two scans that are stopped may be stopped by different members, but the code does not tell by
which. -/
theorem agree_of_not_fits {ms ns : List (String × Json)}
    (hms : ¬ ∀ m ∈ ms, Envelope.Fits c.dialect m) (hns : ¬ ∀ n ∈ ns, Envelope.Fits c.dialect n) :
    (c.resolve methods (Envelope.scanTree c.dialect { inObject := true } ms)).Agree
      (c.resolve methods (Envelope.scanTree c.dialect { inObject := true } ns)) := by
  obtain ⟨f, x, hf, hfin⟩ := Envelope.scanTree_of_not_fits hms { inObject := true }
  obtain ⟨g, y, hg, hgin⟩ := Envelope.scanTree_of_not_fits hns { inObject := true }
  obtain ⟨i, hi⟩ := resolve_stopped c methods f (.data x)
  obtain ⟨j, hj⟩ := resolve_stopped c methods g (.data y)
  rw [hf, hg]
  refine .inr ⟨_, _, hi, hj, ?_, ?_⟩
  · simp [Envelope.issueOf, hfin, hgin, ReadError.cause]
  · simp [Envelope.issueOf, hfin, ReadError.cause]

/-- The order of the members does not count. -/
theorem agree_scanTree_perm {ms ns : List (String × Json)} (hd : Envelope.Distinct c.dialect ms)
    (hp : ms.Perm ns) :
    (c.resolve methods (Envelope.scanTree c.dialect { inObject := true } ms)).Agree
      (c.resolve methods (Envelope.scanTree c.dialect { inObject := true } ns)) := by
  by_cases h : ∀ m ∈ ms, Envelope.Fits c.dialect m
  · have hn : ∀ n ∈ ns, Envelope.Fits c.dialect n := fun n hn => h n (hp.mem_iff.mpr hn)
    rw [Envelope.scanTree_of_fits h, Envelope.scanTree_of_fits hn, List.nil_append, List.nil_append,
      Envelope.foldl_enter_perm hd.apart hp, resolve_perm hd.fields_nodup (hp.filter _)]
    exact agree_refl
  · exact agree_of_not_fits h fun hall => h fun m hm => hall m (hp.mem_iff.mp hm)

theorem decodeText_of_parseMembers {text : String} {ms : List (String × Json)}
    (h : parseMembers text = .ok ms) :
    c.decodeText methods text =
      c.resolve methods (Envelope.scanTree c.dialect { inObject := true } ms) := by
  rw [decodeText, Envelope.scanText_of_parseMembers h]

theorem object_of_decodeText {text : String} {m : Message}
    (h : (c.decodeText methods text).result = .ok m) : ∃ l, parse text = .ok (obj l) := by
  match hs : Envelope.scanText c.dialect text with
  | (e, none) =>
    obtain ⟨ms, hms⟩ := Envelope.exists_parseMembers_of_scanText (congrArg Prod.snd hs)
    exact ⟨arrange ms, parse_of_parseMembers hms⟩
  | (e, some err) =>
    obtain ⟨id, hi⟩ := resolve_stopped c methods e err
    rw [decodeText, hs, hi] at h
    cases h

theorem no_object {text : String} (h : ∀ cs, skipSpace text.toList ≠ '\x7b' :: cs) :
    ∃ i, (c.decodeText methods text).result = .error i ∧ i.code = .parseError ∧ i.id = none ∧
      i.method = none := by
  obtain ⟨err, hscan⟩ := Envelope.scanText_of_no_brace c.dialect h
  unfold decodeText resolve
  rw [hscan]
  split
  · exact ⟨_, rfl, rfl, rfl, rfl⟩
  · exact ⟨_, rfl, rfl, rfl, rfl⟩

/-- A text that decodes is one of an object. A text of another value, and any that starts with no
brace, is a parse error without an id and a method. A text of an object with distinct names, the
tree that it is parsed to and every text with these members in another order agree. -/
theorem decodeText_agrees (c : Codec) (methods : MethodLookup) (text : String) :
    (∀ m, (c.decodeText methods text).result = .ok m → ∃ l, parse text = .ok (obj l)) ∧
    (((∃ v, parse text = .ok v ∧ ∀ l, v ≠ obj l) ∨ ∀ cs, skipSpace text.toList ≠ '\x7b' :: cs) →
      ∃ i, (c.decodeText methods text).result = .error i ∧ i.code = .parseError ∧ i.id = none ∧
        i.method = none) ∧
    ∀ l, parse text = .ok (obj l) →
      ∃ ms, parseMembers text = .ok ms ∧ ofMembers ms = obj l ∧
        (Envelope.Distinct c.dialect ms →
          (c.decodeText methods text).Agree (c.decodeValue methods (obj l)) ∧
          ∀ text' ms', parseMembers text' = .ok ms' → ms.Perm ms' →
            (c.decodeText methods text).Agree (c.decodeText methods text')) := by
  refine ⟨fun m => object_of_decodeText, ?_, ?_⟩
  · rintro (⟨v, hv, hobj⟩ | hbrace)
    · refine no_object fun cs hs => ?_
      obtain ⟨rest, hread, -⟩ := whole_eq_ok.mp hv
      obtain ⟨l, hl⟩ := obj_of_brace hs hread
      exact hobj l hl
    · exact no_object hbrace
  · intro l hl
    obtain ⟨ms, hms, htree⟩ := exists_parseMembers hl
    refine ⟨ms, hms, htree, fun hd => ⟨?_, fun text' ms' hms' hp => ?_⟩⟩
    · have harrange : arrange ms = l := Json.obj.inj htree
      have hp : ms.Perm l := harrange ▸ (arrange_perm hd.1).symm
      rw [decodeText_of_parseMembers hms]
      exact agree_scanTree_perm hd hp
    · rw [decodeText_of_parseMembers hms, decodeText_of_parseMembers hms']
      exact agree_scanTree_perm hd hp

theorem decodeText_agrees_event :
    let c : Codec := ⟨.debug, ⟨[]⟩, 1⟩
    let text := "\x7b\"type\":\"event\",\"event\":\"go\",\"body\":[7]\x7d"
    let text' := "\x7b\"event\":\"go\",\"body\":[7],\"type\":\"event\"\x7d"
    let ms := [("type", str "event"), ("event", str "go"), ("body", arr [int 7])]
    parse text = .ok (ofMembers ms) ∧ Envelope.Distinct .debug ms ∧
      (c.decodeText noMethods text).result = .ok (.notification "go" (.json (arr [int 7]))) ∧
      (c.decodeText noMethods text).Agree (c.decodeValue noMethods (ofMembers ms)) ∧
      (c.decodeText noMethods text).Agree (c.decodeText noMethods text') ∧
      ∃ i, (c.decodeText noMethods "[7]").result = .error i ∧ i.code = .parseError := by
  intro c text text' ms
  have hms : parseMembers text = .ok ms := by cbv
  have hms' : parseMembers text' = .ok [("event", str "go"), ("body", arr [int 7]),
    ("type", str "event")] := by cbv
  have harr : parse "[7]" = .ok (arr [int 7]) := by cbv
  have hd : Envelope.Distinct .debug ms := by decide
  have hok : (c.decodeText noMethods text).result =
      .ok (.notification "go" (.json (arr [int 7]))) := by
    rw [decodeText_of_parseMembers hms]
    rfl
  obtain ⟨hobj, -, hagree⟩ := decodeText_agrees c noMethods text
  obtain ⟨-, hvalue, -⟩ := decodeText_agrees c noMethods "[7]"
  obtain ⟨l, hl⟩ := hobj _ hok
  obtain ⟨ns, hns, htree, hall⟩ := hagree l hl
  obtain rfl : ns = ms := Except.ok.inj (hns.symm.trans hms)
  obtain ⟨htext, horder⟩ := hall hd
  obtain ⟨i, hi, hcode, -⟩ := hvalue (.inl ⟨_, harr, fun l hl => by cases hl⟩)
  have hp := horder text' _ hms' (List.perm_append_singleton _ [_, _]).symm
  rw [htree]
  exact ⟨hl, hd, hok, htext, hp, i, hi, hcode⟩

end Codec
end RpcPeer
