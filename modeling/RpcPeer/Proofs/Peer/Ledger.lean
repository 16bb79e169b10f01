import RpcPeer.Proofs.Peer.Calls

/-! A ledger of the messages and calls that each cause brings about. -/
namespace RpcPeer

structure Ledger (κ : Type) where
  peer : Peer
  /-- The outgoing messages of the peer. -/
  queue : List (Option κ × Message) := []
  /-- The messages that were outgoing once and have been taken. -/
  taken : List (Option κ × Message) := []
  /-- The causes of calls, by key. -/
  cause : Nat → Option κ := fun _ => none
  /-- The calls that ended without a response. -/
  silenced : List (Option κ × Silence) := []

def Peer.pop (p : Peer) : Peer := { p with outgoing := p.outgoing.tail }

namespace Tables

/-- Going from `t` to `t'` begins no call and ends none, and of what it writes nothing is a
response. -/
structure KeepsCalls (t t' : Tables) (ms : List Message) (f : Call → Call) : Prop where
  outgoing : t'.outgoing = t.outgoing ++ ms
  mute : ∀ m ∈ ms, m.isResponse = false
  calls : t'.calls = t.calls.map f
  identity : ∀ c, (f c).identity = c.identity
  nextKey : t'.nextKey = t.nextKey
  owned : t'.owned = t.owned
  listening : t'.listening = t.listening

theorem KeepsCalls.map_calls (t : Tables) {f : Call → Call}
    (hf : ∀ c, (f c).identity = c.identity) :
    KeepsCalls t { t with calls := t.calls.map f } [] f where
  outgoing := (List.append_nil _).symm
  mute := by simp
  calls := rfl
  identity := hf
  nextKey := rfl
  owned := rfl
  listening := rfl

theorem KeepsCalls.of_calls_eq {t t' : Tables} {ms : List Message}
    (ho : t'.outgoing = t.outgoing ++ ms) (hms : ∀ m ∈ ms, m.isResponse = false)
    (hc : t'.calls = t.calls) (hn : t'.nextKey = t.nextKey) (hw : t'.owned = t.owned)
    (hl : t'.listening = t.listening) : KeepsCalls t t' ms id where
  outgoing := ho
  mute := hms
  calls := hc.trans (List.map_id _).symm
  identity := fun _ => rfl
  nextKey := hn
  owned := hw
  listening := hl

/-- Going from `t` to `t'` takes in a request: it is refused with a response, or it becomes a
call. -/
def Takes (t t' : Tables) (id : MessageId) (method : String) : Prop :=
  (∃ o, t' = t.post (.response (some id) (some method) o)) ∨
    ∃ params, t' =
      { t with
        calls := t.calls ++ [⟨t.nextKey, id, method, params, false, none⟩]
        nextKey := t.nextKey + 1 }

end Tables

namespace Ledger

variable {κ : Type}

/-- The peer becomes `q`; whatever is new there has the cause `k`. -/
def advance (l : Ledger κ) (k : Option κ) (q : Peer) : Ledger κ :=
  { l with
    peer := q
    queue := l.queue ++ (q.outgoing.drop l.peer.outgoing.length).map (k, ·)
    cause := fun key => if key < l.peer.nextKey then l.cause key else k }

/-- A call goes on; what it writes has the cause of the call. -/
def move (l : Ledger κ) (key : Nat) (m : CallMove) : Ledger κ :=
  { l.advance (l.cause key) (l.peer.moveCall key m) with
    silenced := l.silenced ++
      match l.peer.ending? key m with
      | some (_, .silent why) => [(l.cause key, why)]
      | _ => [] }

def pop (l : Ledger κ) : Ledger κ :=
  { l with
    peer := l.peer.pop
    queue := l.queue.tail
    taken := l.taken ++ l.queue.take 1 }

section Account

variable [DecidableEq κ] (l : Ledger κ) (k : κ)

def responses : List Message :=
  ((l.taken ++ l.queue).filter fun e => e.1 = some k && e.2.isResponse).map (·.2)

def inFlight : List Call := l.peer.calls.filter fun c => l.cause c.key = some k

/-- How the calls for a cause ended that ended without a response. -/
def silences : List Silence := (l.silenced.filter (·.1 = some k)).map (·.2)

def account : Nat := (l.responses k).length + (l.inFlight k).length + (l.silences k).length

end Account

/-- The books are in order. Each response and each call has a cause `k`, for which `R` allows its id
and its method, and calls are cancelled only for causes that `P` allows it for. -/
structure Sound (l : Ledger κ) (R : κ → MessageId → String → Prop) (P : κ → Prop) : Prop where
  queue : l.queue.map (·.2) = l.peer.outgoing
  keys : (l.peer.calls.map (·.key)).Nodup
  bound : ∀ c ∈ l.peer.calls, c.key < l.peer.nextKey
  owned : l.peer.owned = true
  listening : l.peer.listening = true
  responses : ∀ e ∈ l.taken ++ l.queue, e.2.isResponse → ∃ k id method o,
    e = (some k, .response (some id) (some method) o) ∧ R k id method
  calls : ∀ c ∈ l.peer.calls, ∃ k, l.cause c.key = some k ∧ R k c.id c.method ∧
    (c.cancelled → P k)
  silences : ∀ e ∈ l.silenced, ∃ k, e.1 = some k ∧ (e.2 = .cancelled → P k)

theorem filter_key_eq {cs : List Call} (h : (cs.map (·.key)).Nodup) {c : Call} (hc : c ∈ cs) :
    cs.filter (·.key == c.key) = [c] := by
  induction cs with
  | nil => exact absurd hc List.not_mem_nil
  | cons d cs ih =>
    rw [List.map_cons, List.nodup_cons] at h
    rcases List.mem_cons.mp hc with rfl | hc
    · have hno : cs.filter (·.key == c.key) = [] := by
        refine List.filter_eq_nil_iff.mpr fun d hd he => h.1 ?_
        exact beq_iff_eq.mp he ▸ List.mem_map_of_mem hd
      simp [hno]
    · have hne : (d.key == c.key) = false := by
        refine beq_eq_false_iff_ne.mpr fun he => h.1 ?_
        exact he ▸ List.mem_map_of_mem hc
      rw [List.filter_cons_of_neg (by simp [hne]), ih h.2 hc]

/-- Ending a call takes one call away from those that it is counted among. -/
theorem length_filter_of_mem {cs : List Call} (h : (cs.map (·.key)).Nodup) {c : Call}
    (hc : c ∈ cs) (g : Call → Bool) :
    (cs.filter g).length =
      ((cs.filter (·.key != c.key)).filter g).length + if g c then 1 else 0 := by
  have hsplit := List.countP_eq_countP_filter_add cs g (·.key != c.key)
  have hself : cs.filter (fun d => !(d.key != c.key)) = [c] := by
    simpa [bne] using filter_key_eq h hc
  rw [hself, List.countP_eq_length_filter, List.countP_eq_length_filter] at hsplit
  simpa [List.countP_cons] using hsplit

section Advance

variable {l : Ledger κ} {k : Option κ} {q : Peer}

theorem queue_advance {ms : List Message} (h : q.outgoing = l.peer.outgoing ++ ms) :
    (l.advance k q).queue = l.queue ++ ms.map (k, ·) := by
  simp [advance, h]

theorem cause_advance {key : Nat} (h : key < l.peer.nextKey) :
    (l.advance k q).cause key = l.cause key := if_pos h

end Advance

/-- Nothing but responses is written by a call that goes on. -/
theorem queue_move {l : Ledger κ} (h : l.peer.owned = true) (key : Nat) (m : CallMove) :
    ∃ es, (l.move key m).queue = l.queue ++ es ∧ ∀ e ∈ es, e.2.isResponse = true := by
  obtain ⟨ms, cs, ht, hms⟩ := Peer.frame_moveCall h key m
  have ho : (l.peer.moveCall key m).outgoing = l.peer.outgoing ++ ms := congrArg Tables.outgoing ht
  refine ⟨ms.map (l.cause key, ·), queue_advance ho, fun e he => ?_⟩
  obtain ⟨x, hx, rfl⟩ := List.mem_map.mp he
  exact hms x hx

namespace Sound

variable {l : Ledger κ} {R R' : κ → MessageId → String → Prop} {P P' : κ → Prop} {q : Peer}

theorem start {p : Peer} (ho : p.outgoing = []) (hc : p.calls = []) (hw : p.owned = true)
    (hl : p.listening = true) : Sound ({ peer := p } : Ledger κ) R P := by
  refine ⟨?_, ?_, ?_, hw, hl, ?_, ?_, ?_⟩ <;> simp [ho, hc]

theorem mono (h : l.Sound R P) (hR : ∀ k id method, R k id method → R' k id method)
    (hP : ∀ k, P k → P' k) : l.Sound R' P' := by
  refine ⟨h.queue, h.keys, h.bound, h.owned, h.listening, fun e he hm => ?_, fun c hc => ?_,
    fun e he => ?_⟩
  · obtain ⟨k, id, method, o, rfl, hr⟩ := h.responses e he hm
    exact ⟨k, id, method, o, rfl, hR _ _ _ hr⟩
  · obtain ⟨k, hk, hr, hp⟩ := h.calls c hc
    exact ⟨k, hk, hR _ _ _ hr, fun hx => hP k (hp hx)⟩
  · obtain ⟨k, hk, hp⟩ := h.silences e he
    exact ⟨k, hk, fun hx => hP k (hp hx)⟩

/-- Nothing happens to the accounts as long as no call begins or ends. -/
theorem keep (h : l.Sound R P) {k : Option κ} {ms : List Message} {f : Call → Call}
    (hq : Tables.KeepsCalls l.peer.tables q.tables ms f)
    (hcancel : ∀ c ∈ l.peer.calls, (f c).cancelled → c.cancelled ∨
      ∀ j, l.cause c.key = some j → P j) :
    (l.advance k q).Sound R P := by
  have hqueue := queue_advance (k := k) hq.outgoing
  have hcalls : q.calls = l.peer.calls.map f := hq.calls
  have hid : ∀ c, (f c).key = c.key ∧ (f c).id = c.id ∧ (f c).method = c.method := by
    intro c
    simpa [Call.identity] using hq.identity c
  refine ⟨?_, ?_, ?_, hq.owned.trans h.owned, hq.listening.trans h.listening, ?_, ?_, h.silences⟩
  · rw [hqueue, List.map_append, h.queue, List.map_map]
    exact (congrArg _ (List.map_id ms)).trans hq.outgoing.symm
  · have hkeys : q.calls.map (·.key) = l.peer.calls.map (·.key) := by
      rw [hcalls, List.map_map]
      exact List.map_congr_left fun c _ => (hid c).1
    exact hkeys ▸ h.keys
  · intro c hc
    obtain ⟨d, hd, rfl⟩ := List.mem_map.mp (hcalls ▸ hc)
    rw [(hid d).1]
    exact Nat.lt_of_lt_of_eq (h.bound d hd) hq.nextKey.symm
  · intro e he hm
    rw [hqueue, ← List.append_assoc] at he
    rcases List.mem_append.mp he with he | he
    · exact h.responses e he hm
    · obtain ⟨m, hmem, rfl⟩ := List.mem_map.mp he
      exact absurd hm (by simp [hq.mute m hmem])
  · intro c hc
    obtain ⟨d, hd, rfl⟩ := List.mem_map.mp (hcalls ▸ hc)
    obtain ⟨j, hj, hr, hp⟩ := h.calls d hd
    obtain ⟨hkey, hi, hm⟩ := hid d
    refine ⟨j, ?_, ?_, fun hx => ?_⟩
    · rw [hkey, cause_advance (h.bound d hd), hj]
    · rwa [hi, hm]
    · rcases hcancel d hd hx with hx | hx
      · exact hp hx
      · exact hx j hj

theorem account_keep [DecidableEq κ] (h : l.Sound R P) {k : Option κ} {ms : List Message}
    {f : Call → Call} (hq : Tables.KeepsCalls l.peer.tables q.tables ms f) (j : κ) :
    (l.advance k q).account j = l.account j := by
  have hr : (l.advance k q).responses j = l.responses j := by
    have hms : (ms.map (k, ·)).filter (fun e => e.1 = some j && e.2.isResponse) = [] := by
      apply List.filter_eq_nil_iff.mpr
      intro e he
      obtain ⟨m, hm, rfl⟩ := List.mem_map.mp he
      simp [hq.mute m hm]
    rw [Ledger.responses, queue_advance hq.outgoing, ← List.append_assoc, List.filter_append, hms,
      List.append_nil]
    rfl
  have hc : ((l.advance k q).inFlight j).length = (l.inFlight j).length := by
    have hf : ∀ c ∈ l.peer.calls,
        (((fun c => decide ((l.advance k q).cause c.key = some j)) ∘ f) c : Bool) =
          decide (l.cause c.key = some j) := by
      intro c hc
      have hkey : (f c).key = c.key := congrArg Prod.fst (hq.identity c)
      simp only [Function.comp, hkey, cause_advance (h.bound c hc)]
    have hcalls : (l.advance k q).peer.calls = l.peer.calls.map f := hq.calls
    rw [inFlight, hcalls, List.filter_map, List.length_map, List.filter_congr hf]
    rfl
  have hs : (l.advance k q).silences j = l.silences j := rfl
  rw [account, hr, hc, hs, account]

theorem outgoing_post (h : l.Sound R P) {m : Message}
    (hq : q.tables = l.peer.tables.post m) : q.outgoing = l.peer.outgoing ++ [m] := by
  refine (congrArg Tables.outgoing hq).trans ?_
  rw [Tables.post, show l.peer.tables.listening = true from h.listening]
  rfl

section Take

variable {k : κ} {id : MessageId} {method : String} {o : Outcome} {params : Payload}

/-- A request is refused. -/
theorem refuse (h : l.Sound R P)
    (hq : q.tables = l.peer.tables.post (.response (some id) (some method) o))
    (hR : R k id method) : (l.advance (some k) q).Sound R P := by
  have ho := outgoing_post h hq
  have hcalls : q.calls = l.peer.calls := congrArg Tables.calls hq
  have hnext : q.nextKey = l.peer.nextKey := congrArg Tables.nextKey hq
  refine ⟨?_, hcalls ▸ h.keys, ?_, (congrArg Tables.owned hq).trans h.owned,
    (congrArg Tables.listening hq).trans h.listening, ?_, ?_, h.silences⟩
  · rw [queue_advance ho, List.map_append, h.queue]
    exact ho.symm
  · exact fun c hc => hnext ▸ h.bound c (hcalls ▸ hc)
  · intro e he hm
    rw [queue_advance ho, ← List.append_assoc] at he
    rcases List.mem_append.mp he with he | he
    · exact h.responses e he hm
    · exact ⟨k, id, method, o, List.mem_singleton.mp he, hR⟩
  · intro c hc
    have hc' : c ∈ l.peer.calls := hcalls ▸ hc
    rw [cause_advance (h.bound c hc')]
    exact h.calls c hc'

/-- A request becomes a call. -/
theorem accept (h : l.Sound R P)
    (hq : q.tables =
      { l.peer.tables with
        calls := l.peer.calls ++ [⟨l.peer.nextKey, id, method, params, false, none⟩]
        nextKey := l.peer.nextKey + 1 })
    (hR : R k id method) : (l.advance (some k) q).Sound R P := by
  have ho : q.outgoing = l.peer.outgoing ++ [] :=
    (congrArg Tables.outgoing hq).trans (List.append_nil _).symm
  have hcalls : q.calls = l.peer.calls ++ [⟨l.peer.nextKey, id, method, params, false, none⟩] :=
    congrArg Tables.calls hq
  have hnext : q.nextKey = l.peer.nextKey + 1 := congrArg Tables.nextKey hq
  refine ⟨?_, ?_, ?_, (congrArg Tables.owned hq).trans h.owned,
    (congrArg Tables.listening hq).trans h.listening, ?_, ?_, h.silences⟩
  · rw [queue_advance ho, List.map_append, h.queue]
    exact ho.symm
  · change (q.calls.map (·.key)).Nodup
    rw [hcalls, List.map_append]
    refine List.nodup_append.mpr ⟨h.keys, by simp, ?_⟩
    intro i hi j hj hij
    obtain ⟨c, hc, rfl⟩ := List.mem_map.mp hi
    have hkey : c.key = l.peer.nextKey := hij.trans (List.mem_singleton.mp hj)
    exact absurd (h.bound c hc) (by omega)
  · intro c hc
    change c.key < q.nextKey
    rw [hnext]
    rcases List.mem_append.mp (hcalls ▸ hc) with hc | hc
    · exact Nat.lt_succ_of_lt (h.bound c hc)
    · rw [List.mem_singleton.mp hc]
      exact Nat.lt_succ_self _
  · intro e he hm
    rw [queue_advance ho, List.map_nil, List.append_nil] at he
    exact h.responses e he hm
  · intro c hc
    rcases List.mem_append.mp (hcalls ▸ hc) with hc | hc
    · rw [cause_advance (h.bound c hc)]
      exact h.calls c hc
    · rw [List.mem_singleton.mp hc]
      exact ⟨k, if_neg (Nat.lt_irrefl _), hR, by simp⟩

theorem take (h : l.Sound R P) (hq : Tables.Takes l.peer.tables q.tables id method)
    (hR : R k id method) : (l.advance (some k) q).Sound R P := by
  rcases hq with ⟨o, hq⟩ | ⟨params, hq⟩
  · exact h.refuse hq hR
  · exact h.accept hq hR

theorem account_refuse [DecidableEq κ] (h : l.Sound R P)
    (hq : q.tables = l.peer.tables.post (.response (some id) (some method) o)) (j : κ) :
    (l.advance (some k) q).account j = l.account j + if j = k then 1 else 0 := by
  have hs : (l.advance (some k) q).silences j = l.silences j := rfl
  have hr : ((l.advance (some k) q).responses j).length =
      (l.responses j).length + if j = k then 1 else 0 := by
    rw [Ledger.responses, queue_advance (outgoing_post h hq), ← List.append_assoc,
      List.filter_append, List.map_append, List.length_append]
    by_cases hj : j = k
    · simp [Ledger.responses, advance, hj, Message.isResponse]
    · have hkj : ¬ k = j := fun he => hj he.symm
      simp [Ledger.responses, advance, hj, hkj]
  have hcalls : (l.advance (some k) q).peer.calls = l.peer.calls := congrArg Tables.calls hq
  have hc : (l.advance (some k) q).inFlight j = l.inFlight j := by
    rw [inFlight, hcalls]
    exact List.filter_congr fun c hc => by rw [cause_advance (h.bound c hc)]
  rw [account, hr, hc, hs, account]
  omega

theorem account_accept [DecidableEq κ] (h : l.Sound R P)
    (hq : q.tables =
      { l.peer.tables with
        calls := l.peer.calls ++ [⟨l.peer.nextKey, id, method, params, false, none⟩]
        nextKey := l.peer.nextKey + 1 }) (j : κ) :
    (l.advance (some k) q).account j = l.account j + if j = k then 1 else 0 := by
  have hs : (l.advance (some k) q).silences j = l.silences j := rfl
  have ho : q.outgoing = l.peer.outgoing ++ [] :=
    (congrArg Tables.outgoing hq).trans (List.append_nil _).symm
  have hr : (l.advance (some k) q).responses j = l.responses j := by
    rw [Ledger.responses, queue_advance ho, List.map_nil, List.append_nil]
    rfl
  have hcalls : (l.advance (some k) q).peer.calls =
      l.peer.calls ++ [⟨l.peer.nextKey, id, method, params, false, none⟩] :=
    congrArg Tables.calls hq
  have hc : ((l.advance (some k) q).inFlight j).length =
      (l.inFlight j).length + if j = k then 1 else 0 := by
    have hold : l.peer.calls.filter (fun c => (l.advance (some k) q).cause c.key = some j) =
        l.inFlight j := List.filter_congr fun c hc => by rw [cause_advance (h.bound c hc)]
    have hnew : (l.advance (some k) q).cause l.peer.nextKey = some k :=
      if_neg (Nat.lt_irrefl _)
    rw [inFlight, hcalls, List.filter_append, hold, List.length_append]
    by_cases hj : j = k
    · simp [hj, hnew]
    · have hkj : ¬ k = j := fun he => hj he.symm
      simp [hj, hkj, hnew]
  rw [account, hr, hc, hs, account]
  omega

theorem account_take [DecidableEq κ] (h : l.Sound R P)
    (hq : Tables.Takes l.peer.tables q.tables id method) (j : κ) :
    (l.advance (some k) q).account j = l.account j + if j = k then 1 else 0 := by
  rcases hq with ⟨o, hq⟩ | ⟨params, hq⟩
  · exact h.account_refuse hq j
  · exact h.account_accept hq j

end Take

theorem move_of_none (l : Ledger κ) {key : Nat} {m : CallMove}
    (he : l.peer.ending? key m = none) :
    l.move key m = l.advance (l.cause key) (l.peer.moveCall key m) := by
  simp [Ledger.move, he, advance]

private theorem keepsCalls_move {key : Nat} {m : CallMove}
    (he : l.peer.ending? key m = none) :
    ∃ f, Tables.KeepsCalls l.peer.tables (l.peer.moveCall key m).tables [] f ∧
      ∀ c, (f c).cancelled = c.cancelled := by
  obtain ⟨f, hf, ht⟩ := Peer.tables_moveCall_of_none he
  refine ⟨f, ?_, fun c => (hf c).2⟩
  rw [ht]
  exact .map_calls _ fun c => (hf c).1

theorem silenced_move {key : Nat} {m : CallMove} {c : Call} {e : Ending}
    (he : l.peer.ending? key m = some (c, e)) :
    (l.move key m).silenced = l.silenced ++ e.silence.map (l.cause key, ·) := by
  cases e <;> simp [Ledger.move, he, Ending.silence, advance]

private theorem ends_move (h : l.Sound R P) {key : Nat} {m : CallMove} {c : Call} {e : Ending}
    (he : l.peer.ending? key m = some (c, e)) :
    (l.move key m).queue = l.queue ++ (e.responses c).map (l.cause key, ·) ∧
      (l.move key m).peer.outgoing = l.peer.outgoing ++ e.responses c ∧
      (l.move key m).peer.calls = l.peer.calls.filter (·.key != c.key) := by
  have ht := Peer.tables_moveCall_of_some h.owned he
  have ho : (l.peer.moveCall key m).outgoing = l.peer.outgoing ++ e.responses c := by
    refine (congrArg Tables.outgoing ht).trans ?_
    rw [Tables.finish, show l.peer.tables.listening = true from h.listening]
    rfl
  exact ⟨queue_advance ho, ho, congrArg Tables.calls ht⟩

theorem move (h : l.Sound R P) (key : Nat) (m : CallMove) : (l.move key m).Sound R P := by
  cases he : l.peer.ending? key m with
  | none =>
    rw [move_of_none l he]
    obtain ⟨f, hq, hf⟩ := keepsCalls_move he
    exact h.keep hq fun c _ hx => .inl (hf c ▸ hx)
  | some ce =>
    obtain ⟨c, e⟩ := ce
    obtain ⟨hqueue, hout, hcalls⟩ := ends_move h he
    obtain ⟨hc, hkey, hcancelled⟩ := Peer.mem_of_ending? he
    obtain ⟨k, hk, hR, hP⟩ := h.calls c hc
    have ht := Peer.tables_moveCall_of_some h.owned he
    have hmem : ∀ d ∈ (l.move key m).peer.calls, d ∈ l.peer.calls := fun d hd =>
      (List.mem_filter.mp (hcalls ▸ hd)).1
    refine ⟨?_, ?_, ?_, (congrArg Tables.owned ht).trans h.owned,
      (congrArg Tables.listening ht).trans h.listening, ?_, ?_, ?_⟩
    · rw [hqueue, hout, List.map_append, h.queue, List.map_map]
      exact congrArg _ (List.map_id _)
    · rw [hcalls]
      exact h.keys.sublist (List.filter_sublist.map _)
    · intro d hd
      have hnext : (l.move key m).peer.nextKey = l.peer.nextKey := congrArg Tables.nextKey ht
      exact hnext ▸ h.bound d (hmem d hd)
    · intro x hx hr
      rw [hqueue, ← List.append_assoc] at hx
      rcases List.mem_append.mp hx with hx | hx
      · exact h.responses x hx hr
      · cases e with
        | silent why => exact absurd hx List.not_mem_nil
        | answered o =>
          rw [← hkey, hk] at hx
          exact ⟨k, c.id, c.method, o, List.mem_singleton.mp hx, hR⟩
    · intro d hd
      have hd' := hmem d hd
      obtain ⟨j, hj, hd'⟩ := h.calls d hd'
      exact ⟨j, (if_pos (h.bound d (hmem d hd))).trans hj, hd'⟩
    · intro x hx
      rw [silenced_move he] at hx
      rcases List.mem_append.mp hx with hx | hx
      · exact h.silences x hx
      · obtain ⟨why, hwhy, rfl⟩ := List.mem_map.mp hx
        refine ⟨k, hkey ▸ hk, fun hw => hP (hcancelled ?_)⟩
        cases e with
        | silent w => rw [← hw, List.mem_singleton.mp hwhy]
        | answered => exact absurd hwhy List.not_mem_nil

theorem account_move [DecidableEq κ] (h : l.Sound R P) (key : Nat) (m : CallMove) (j : κ) :
    (l.move key m).account j = l.account j := by
  cases he : l.peer.ending? key m with
  | none =>
    rw [move_of_none l he]
    obtain ⟨f, hq, -⟩ := keepsCalls_move he
    exact h.account_keep hq j
  | some ce =>
    obtain ⟨c, e⟩ := ce
    obtain ⟨hqueue, -, hcalls⟩ := ends_move h he
    obtain ⟨hc, rfl, -⟩ := Peer.mem_of_ending? he
    have hr : ((l.move c.key m).responses j).length = (l.responses j).length +
        if l.cause c.key = some j then (e.responses c).length else 0 := by
      rw [Ledger.responses, hqueue, ← List.append_assoc, List.filter_append, List.map_append,
        List.length_append]
      congr 1
      cases e with
      | silent => simp [Ending.responses]
      | answered o =>
        by_cases hj : l.cause c.key = some j <;> simp [Ending.responses, hj, Message.isResponse]
    have hf : (l.inFlight j).length = ((l.move c.key m).inFlight j).length +
        if l.cause c.key = some j then 1 else 0 := by
      have hnew : (l.move c.key m).inFlight j =
          (l.peer.calls.filter (·.key != c.key)).filter fun d => l.cause d.key = some j := by
        rw [inFlight, hcalls]
        refine List.filter_congr fun d hd => ?_
        have hb := h.bound d (List.mem_filter.mp hd).1
        simp only [Ledger.move, cause_advance hb]
      rw [hnew, inFlight, length_filter_of_mem h.keys hc]
      simp
    have hs : ((l.move c.key m).silences j).length = (l.silences j).length +
        if l.cause c.key = some j then e.silence.length else 0 := by
      rw [Ledger.silences, silenced_move he, List.filter_append, List.map_append,
        List.length_append]
      congr 1
      cases e with
      | silent =>
        by_cases hj : l.cause c.key = some j <;> simp [Ending.silence, hj]
      | answered => simp [Ending.silence]
    have hone : (e.responses c).length + e.silence.length = 1 := by cases e <;> rfl
    rw [account, hr, hs, account, hf]
    split <;> omega

private theorem taken_pop (l : Ledger κ) : l.pop.taken ++ l.pop.queue = l.taken ++ l.queue := by
  simp [pop, List.append_assoc, ← List.drop_one]

theorem pop (h : l.Sound R P) : l.pop.Sound R P := by
  refine ⟨?_, h.keys, h.bound, h.owned, h.listening, ?_, h.calls, h.silences⟩
  · simp [Ledger.pop, Peer.pop, h.queue]
  · rw [taken_pop]
    exact h.responses

theorem account_pop [DecidableEq κ] (l : Ledger κ) (j : κ) : l.pop.account j = l.account j := by
  rw [account, Ledger.responses, taken_pop]
  rfl

end Sound
end Ledger
end RpcPeer
