import RpcPeer.Dialect.Codec

/-! Which messages are owed an answer: requests, and issues that can be answered. -/
namespace RpcPeer

def Envelope.identity? (e : Envelope) : Option (MessageId × String) :=
  e.id.bind fun id => e.method.map fun method => (id, method)

/-- The id and the method under which a decoded message is owed an answer. -/
def Decoding.owed? (d : Decoding) : Option (MessageId × String) :=
  match d.result with
  | .ok (.request id method _) => some (id, method)
  | .ok _ => none
  | .error i => i.id.bind fun id => i.method.map fun method => (id, method)

theorem Decoding.request_or_issue {d : Decoding} {id : MessageId} {method : String}
    (h : d.owed? = some (id, method)) :
    (∃ params, d.result = .ok (.request id method params)) ∨
      ∃ i, d.result = .error i ∧ i.id = some id ∧ i.method = some method ∧
        i.isAnswerable = true := by
  unfold owed? at h
  split at h
  next hd =>
    cases h
    exact .inl ⟨_, hd⟩
  next => cases h
  next i hd =>
    obtain ⟨id', hid, h⟩ := Option.bind_eq_some_iff.mp h
    obtain ⟨method', hmethod, h⟩ := Option.map_eq_some_iff.mp h
    cases h
    exact .inr ⟨i, hd, hid, hmethod, by simp [Issue.isAnswerable, hid, hmethod]⟩

namespace Base

theorem owed?_resolveResponse (catalog : Catalog) (methods : MethodLookup) (e : Envelope)
    (id : Option MessageId) : (resolveResponse catalog methods e id).owed? = none := by
  unfold resolveResponse
  split
  · rfl
  · split
    · split
      · rfl
      · cases id <;> rfl
    · rfl

/-- Whatever is wrong with a message, it is owed an answer if its id and its method have been read,
and else it is not. -/
theorem owed?_resolve (catalog : Catalog) (methods : MethodLookup) (e : Envelope)
    (err : Option ReadError) : (resolve catalog methods e err).owed? = e.identity? := by
  unfold resolve
  split
  · rfl
  · split
    · rfl
    · split
      next method hm =>
        unfold resolveCall
        split
        · simp [Decoding.owed?, invalidParams, Envelope.identity?, hm]
        · cases hid : e.id <;> simp [Decoding.owed?, Envelope.identity?, hm, hid]
      next hm =>
        rw [owed?_resolveResponse]
        cases hid : e.id <;> simp [Envelope.identity?, hm, hid]

end Base

namespace Debug

theorem owed?_resolveEvent (catalog : Catalog) {e : Envelope} (h : e.kind = some event) :
    ({ result := resolveEvent catalog e } : Decoding).owed? = none := by
  unfold resolveEvent
  split
  · simp [Decoding.owed?, invalid, identity, h]
  · split <;> rfl

theorem owed?_resolveResponse (catalog : Catalog) (methods : MethodLookup) {e : Envelope}
    (h : e.kind = some response) : (resolveResponse catalog methods e).owed? = none := by
  unfold resolveResponse
  split
  next hr =>
    have hne : ¬ response = event := by decide
    simp [Decoding.owed?, invalid, identity, h, hr, hne]
  next => split <;> rfl

/-- A response whose scan was stopped after its number and its method had been read: what stopped
it, the number and the method. -/
def brokenResponse? (e : Envelope) (err : Option ReadError) :
    Option (ReadError × Int64 × String) :=
  if e.kind = some response then
    err.bind fun err => e.requestSeq.bind fun n => e.method.map fun method => (err, n, method)
  else none

/-- A broken response is taken for a request, under the number of the request that it answers. -/
theorem resolve_of_brokenResponse (catalog : Catalog) (methods : MethodLookup) {e : Envelope}
    {err : Option ReadError} {r : ReadError} {n : Int64} {method : String}
    (h : brokenResponse? e err = some (r, n, method)) :
    (resolve catalog methods e err).result = .error (e.issueOf r (some (.number n))) ∧
      e.method = some method := by
  have hne : ¬ response = event := by decide
  unfold brokenResponse? at h
  split at h
  next hk =>
    obtain ⟨x, hx, h⟩ := Option.bind_eq_some_iff.mp h
    obtain ⟨i, hi, h⟩ := Option.bind_eq_some_iff.mp h
    obtain ⟨m, hm, h⟩ := Option.map_eq_some_iff.mp h
    cases h
    refine ⟨?_, hm⟩
    simp [resolve, hx, identity, hk, hne, hi]
  next => exact absurd h (by simp)

/-- No other response is owed an answer, and no event. -/
theorem owed?_resolve (catalog : Catalog) (methods : MethodLookup) {e : Envelope}
    (h : e.kind = some response ∨ e.kind = some event) {err : Option ReadError}
    (hb : brokenResponse? e err = none) : (resolve catalog methods e err).owed? = none := by
  have hne : ¬ response = event := by decide
  have hre : ¬ response = request := by decide
  have hee : ¬ event = request := by decide
  unfold resolve
  rcases h with h | h
  · cases err with
    | some err =>
      simp only [brokenResponse?, h, if_true, Option.bind_some] at hb
      cases hn : e.requestSeq <;> cases hm : e.method <;>
        simp_all [Decoding.owed?, Envelope.issueOf, identity]
    | none => simp [h, hre, hne, owed?_resolveResponse catalog methods h]
  · cases err with
    | some err => simp [Decoding.owed?, Envelope.issueOf, identity, h]
    | none => simp [h, hee, owed?_resolveEvent catalog h]

/-- A request is owed an answer, whatever is wrong with it. -/
theorem owed?_resolve_request (catalog : Catalog) (methods : MethodLookup) {e : Envelope}
    {n : Int64} {method : String} (hkind : e.kind = some request) (hseq : e.seq = some n)
    (hmethod : e.method = some method) (err : Option ReadError) :
    (resolve catalog methods e err).owed? = some (.number n, method) := by
  have hevent : ¬ request = event := by decide
  have hresponse : ¬ request = response := by decide
  unfold resolve
  split
  next => simp [Decoding.owed?, Envelope.issueOf, identity, hkind, hseq, hmethod, hevent, hresponse]
  next =>
    simp only [hkind, BEq.rfl, if_true, resolveRequest, hseq, hmethod]
    split <;> rfl

end Debug
end RpcPeer
