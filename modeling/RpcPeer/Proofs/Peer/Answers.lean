import RpcPeer.Proofs.Dialect.Resolution
import RpcPeer.Proofs.Peer.Effects
import RpcPeer.Proofs.Peer.Ledger

/-! Every request that comes in is answered once, however broken it is. -/
namespace RpcPeer

namespace Peer

variable {p : Peer}

theorem tables_receiveText (p : Peer) (text : String) :
    ∃ q : Peer, q.tables = p.tables ∧
      p.receiveText text = q.receive (p.codec.decodeText p.methodOf? text).result := by
  cases hd : (p.codec.decodeText p.methodOf? text).result with
  | ok m =>
    refine ⟨(p.writeAll (p.codec.decodeText p.methodOf? text).log).traceReceived m, ?_, ?_⟩
    · rw [tables_traceReceived, tables_writeAll]
    · simp only [receiveText, hd]
  | error i =>
    refine ⟨p.writeAll (p.codec.decodeText p.methodOf? text).log, tables_writeAll .., ?_⟩
    simp only [receiveText, hd]

/-- What is owed an answer is refused with one or becomes a call. -/
theorem takes_receive {d : Decoding} {id : MessageId} {method : String}
    (h : d.owed? = some (id, method)) :
    p.tables.Takes (p.receive d.result).tables id method := by
  unfold Decoding.owed? at h
  split at h
  next i m params hd =>
    obtain ⟨rfl, rfl⟩ := Prod.mk.inj (Option.some.inj h)
    rw [hd]
    rcases tables_handleRequest p i m params with ho | ⟨-, ho⟩
    · exact .inl ho
    · exact .inr ⟨params, ho⟩
  next => exact absurd h (by simp)
  next i hd =>
    obtain ⟨j, hi, hm⟩ := Option.bind_eq_some_iff.mp h
    obtain ⟨m, hm', he⟩ := Option.map_eq_some_iff.mp hm
    obtain ⟨rfl, rfl⟩ := Prod.mk.inj he
    rw [hd]
    exact .inl ⟨_, tables_handleIssue_of_answerable hi hm'⟩

theorem keepsCalls_receive {d : Decoding} (h : d.owed? = none) :
    (p.receive d.result).codec = p.codec ∧
      ∃ f, p.tables.KeepsCalls (p.receive d.result).tables [] f := by
  unfold Decoding.owed? at h
  split at h
  next => exact absurd h (by simp)
  next m hno hd =>
    rw [hd]
    cases m with
    | request i method params => exact absurd rfl (hno i method params)
    | notification method params =>
      obtain ⟨f, hf, -, ht⟩ := tables_handleNotification p method params
      refine ⟨congrArg Tables.codec ht, f, ?_⟩
      rw [receive, consume, ht]
      exact .map_calls _ hf
    | response i method o =>
      obtain ⟨ts, ps, ht⟩ := frame_handleResponse p i o
      refine ⟨congrArg Tables.codec ht, id, ?_⟩
      rw [receive, consume, ht]
      exact .of_calls_eq (List.append_nil _).symm (by simp) rfl rfl rfl rfl
  next i hd =>
    rw [hd]
    have hi : i.isAnswerable = false := by
      unfold Issue.isAnswerable
      cases hx : i.id <;> cases hy : i.method <;> simp_all
    have ht := tables_handleIssue_of_not_answerable (p := p) hi
    refine ⟨congrArg Tables.codec ht, id, ?_⟩
    rw [receive, ht]
    exact .of_calls_eq (List.append_nil _).symm (by simp) rfl rfl rfl rfl

end Peer

/-- What reaches a peer that only serves: the texts of messages, and its calls that go on. -/
inductive Inbound
  | text (s : String)
  | call (key : Nat) (m : CallMove)

def Inbound.text? : Inbound → Option String
  | text s => some s
  | call .. => none

def owedAt (texts : List String) (n : Nat) : Option (MessageId × String) :=
  texts[n]?.bind fun s => (Envelope.scanText .base s).1.identity?

theorem owedAt_append (texts : List String) (s : String) (n : Nat) :
    owedAt (texts ++ [s]) n =
      if n = texts.length then (Envelope.scanText .base s).1.identity? else owedAt texts n := by
  unfold owedAt
  rcases Nat.lt_trichotomy n texts.length with hn | hn | hn
  · rw [List.getElem?_append_left hn, if_neg (Nat.ne_of_lt hn)]
  · simp [hn]
  · rw [if_neg (Nat.ne_of_gt hn), List.getElem?_eq_none (by simp; omega),
      List.getElem?_eq_none (Nat.le_of_lt hn)]

theorem owedAt_length (texts : List String) : owedAt texts texts.length = none := by
  simp [owedAt]

namespace Ledger

/-- Takes in what comes; texts are the causes of what follows from them, and the first has the
number `n`. -/
def serve (l : Ledger Nat) (n : Nat) : List Inbound → Ledger Nat
  | [] => l
  | .text s :: as => (l.advance (some n) (l.peer.receiveText s)).serve (n + 1) as
  | .call key m :: as => (l.move key m).serve n as

/-- The books of a peer of the base dialect after it has taken in these texts. -/
structure Serves (texts : List String) (l : Ledger Nat) : Prop where
  sound : l.Sound (fun n id method => owedAt texts n = some (id, method)) fun _ => True
  base : l.peer.codec.dialect = .base
  responses : ∀ e ∈ l.queue, e.2.isResponse = true
  account : ∀ n, l.account n = if (owedAt texts n).isSome then 1 else 0

namespace Serves

variable {texts : List String} {l : Ledger Nat}

/-- What texts are owed does not change when another one comes in. -/
theorem sound_append (h : Serves texts l) (s : String) :
    l.Sound (fun n id method => owedAt (texts ++ [s]) n = some (id, method)) fun _ => True := by
  refine h.sound.mono (fun n id method hn => ?_) fun _ _ => trivial
  have hne : n ≠ texts.length := by
    rintro rfl
    rw [owedAt_length] at hn
    exact absurd hn (by simp)
  rw [owedAt_append, if_neg hne, hn]

theorem takes (h : Serves texts l) {s : String} {id : MessageId} {method : String} {q : Peer}
    (hs : (Envelope.scanText .base s).1.identity? = some (id, method))
    (ht : Tables.Takes l.peer.tables q.tables id method) :
    Serves (texts ++ [s]) (l.advance (some texts.length) q) := by
  have hsound := h.sound_append s
  have hnew : owedAt (texts ++ [s]) texts.length = some (id, method) := by
    rw [owedAt_append, if_pos rfl, hs]
  refine ⟨hsound.take ht hnew, ?_, ?_, fun n => ?_⟩
  · have hc : q.codec = l.peer.codec := by
      rcases ht with ⟨o, ht⟩ | ⟨params, ht⟩
      · exact congrArg Tables.codec ht
      · exact congrArg Tables.codec ht
    exact (congrArg Codec.dialect hc).trans h.base
  · intro e he
    rcases ht with ⟨o, ht⟩ | ⟨params, ht⟩
    · rw [queue_advance (h.sound.outgoing_post ht)] at he
      rcases List.mem_append.mp he with he | he
      · exact h.responses e he
      · rw [List.mem_singleton.mp he]
        rfl
    · have hout : q.outgoing = l.peer.outgoing ++ [] :=
        (congrArg Tables.outgoing ht).trans (List.append_nil _).symm
      rw [queue_advance hout] at he
      exact h.responses e (by simpa using he)
  · rw [hsound.account_take ht, h.account, owedAt_append]
    by_cases hn : n = texts.length
    · simp [hn, owedAt_length, hs]
    · simp [hn]

theorem keeps (h : Serves texts l) {s : String} {q : Peer} {f : Call → Call}
    (hs : (Envelope.scanText .base s).1.identity? = none) (hc : q.codec = l.peer.codec)
    (ht : Tables.KeepsCalls l.peer.tables q.tables [] f) :
    Serves (texts ++ [s]) (l.advance (some texts.length) q) := by
  have hsound := h.sound_append s
  refine ⟨hsound.keep ht fun _ _ _ => .inr fun _ _ => trivial, ?_, ?_, fun n => ?_⟩
  · exact (congrArg Codec.dialect hc).trans h.base
  · intro e he
    rw [queue_advance ht.outgoing] at he
    exact h.responses e (by simpa using he)
  · rw [hsound.account_keep ht, h.account, owedAt_append]
    by_cases hn : n = texts.length
    · simp [hn, owedAt_length, hs]
    · simp [hn]

theorem text (h : Serves texts l) (s : String) :
    Serves (texts ++ [s]) (l.advance (some texts.length) (l.peer.receiveText s)) := by
  obtain ⟨q, hq, hr⟩ := l.peer.tables_receiveText s
  generalize hd : l.peer.codec.decodeText l.peer.methodOf? s = d at hr
  have howed : d.owed? = (Envelope.scanText .base s).1.identity? := by
    rw [← hd]
    simp only [Codec.decodeText, Codec.resolve, h.base]
    exact Base.owed?_resolve ..
  rw [hr]
  cases ho : d.owed? with
  | some im =>
    obtain ⟨id, method⟩ := im
    have ht := Peer.takes_receive (p := q) ho
    rw [hq] at ht
    exact h.takes (howed.symm.trans ho) ht
  | none =>
    obtain ⟨hc, f, ht⟩ := Peer.keepsCalls_receive (p := q) ho
    rw [hq] at ht
    exact h.keeps (howed.symm.trans ho) (hc.trans (congrArg Tables.codec hq)) ht

theorem call (h : Serves texts l) (key : Nat) (m : CallMove) : Serves texts (l.move key m) := by
  refine ⟨h.sound.move key m, ?_, fun e he => ?_, fun n => ?_⟩
  · obtain ⟨ms, cs, ht, -⟩ := Peer.frame_moveCall h.sound.owned key m
    have hc : (l.peer.moveCall key m).codec = l.peer.codec := congrArg Tables.codec ht
    exact (congrArg Codec.dialect hc).trans h.base
  · obtain ⟨es, hes, hr⟩ := Ledger.queue_move h.sound.owned key m
    rw [hes] at he
    exact (List.mem_append.mp he).elim (h.responses e) (hr e)
  · rw [h.sound.account_move, h.account]

theorem serve (h : Serves texts l) (as : List Inbound) :
    Serves (texts ++ as.filterMap Inbound.text?) (l.serve texts.length as) := by
  induction as generalizing texts l with
  | nil => simpa [Ledger.serve] using h
  | cons a as ih =>
    cases a with
    | text s =>
      have := ih (h.text s)
      simpa [Ledger.serve, Inbound.text?] using this
    | call key m => exact ih (h.call key m)

end Serves
end Ledger

/-- What the text of a response or an event makes a peer of the debug dialect write: nothing, unless
it is a response that breaks off after its number and its method, which is answered as if it were a
request. -/
theorem broken_response_answered (p : Peer) (hd : p.codec.dialect = .debug) (text : String)
    (hk : (Envelope.scanText .debug text).1.kind = some Debug.response ∨
      (Envelope.scanText .debug text).1.kind = some Debug.event) :
    let s := Envelope.scanText .debug text
    (p.receiveText text).outgoing = p.outgoing ++
      match Debug.brokenResponse? s.1 s.2 with
      | some (r, n, method) =>
        if p.listening then
          [.response (some (.number n)) (some method)
            (.error (s.1.issueOf r (some (.number n))).responseError)]
        else []
      | none => [] := by
  intro s
  obtain ⟨q, hq, hr⟩ := p.tables_receiveText text
  have hdec : p.codec.decodeText p.methodOf? text =
      Debug.resolve p.codec.catalog p.methodOf? s.1 s.2 := by
    simp only [Codec.decodeText, Codec.resolve, hd]
    rfl
  have hout : q.outgoing = p.outgoing := congrArg Tables.outgoing hq
  have hlisten : q.listening = p.listening := congrArg Tables.listening hq
  rw [hr, hdec, ← hout, ← hlisten]
  cases hb : Debug.brokenResponse? s.1 s.2 with
  | none =>
    have howed := Debug.owed?_resolve p.codec.catalog p.methodOf? hk hb
    obtain ⟨-, f, ht⟩ := Peer.keepsCalls_receive (p := q) howed
    exact ht.outgoing
  | some b =>
    obtain ⟨r, n, method⟩ := b
    obtain ⟨hres, hm⟩ := Debug.resolve_of_brokenResponse p.codec.catalog p.methodOf? hb
    rw [hres]
    have ht := Peer.tables_handleIssue_of_answerable (p := q)
      (i := s.1.issueOf r (some (.number n))) rfl hm
    exact congrArg Tables.outgoing ht

/-- A response to the request `3` that lacks its closing brace. -/
theorem broken_response_answered_unclosed :
    let p : Peer := { codec := ⟨.debug, ⟨[]⟩, 1⟩, service := .empty "" }
    let text := "\x7b\"type\":\"response\",\"request_seq\":3,\"command\":\"shout\""
    p.codec.dialect = .debug ∧
      (Envelope.scanText .debug text).1.kind = some Debug.response ∧
      ∃ e, (p.receiveText text).outgoing =
        [.response (some (.number 3)) (some "shout") (.error e)] := by
  intro p text
  have hk : (Envelope.scanText .debug text).1.kind = some Debug.response := by decide +kernel
  have hb : (Debug.brokenResponse? (Envelope.scanText .debug text).1
      (Envelope.scanText .debug text).2).map (·.2) = some (3, "shout") := by decide +kernel
  obtain ⟨⟨r, n, method⟩, hb, he⟩ := Option.map_eq_some_iff.mp hb
  cases he
  have h := broken_response_answered p rfl text (.inl hk)
  simp only [hb] at h
  exact ⟨rfl, hk, _, h⟩

/-- Not only requests are answered. -/
theorem response_answered :
    ¬ ∀ (p : Peer) (text : String), p.codec.dialect = .debug →
      ((Envelope.scanText .debug text).1.kind = some Debug.response ∨
        (Envelope.scanText .debug text).1.kind = some Debug.event) →
      ∀ m ∈ ((p.receiveText text).outgoing.drop p.outgoing.length), m.isResponse = false := by
  intro h
  have := h { codec := ⟨.debug, ⟨[]⟩, 1⟩, service := .empty "" }
    "\x7b\"type\":\"response\",\"request_seq\":3,\"command\":\"shout\"" rfl
    (.inl (by decide +kernel))
  revert this
  decide +kernel

end RpcPeer
