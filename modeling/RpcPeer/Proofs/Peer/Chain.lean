import RpcPeer.Proofs.Peer.Fate
import RpcPeer.Proofs.Steps

/-! Chains of combinators over a request, polled from the last one down. -/
namespace RpcPeer
open Steps Host

/-- A stage whose continuation needs no further request. -/
inductive Combinator
  | map (f : Payload → Payload)
  | tryMap (f : Payload → Except RequestError Payload)
  | andThen (usesPeer : Bool) (f : Payload → Except RequestError Payload)
  | timeout (after : Nat) (deadline : Option Nat)

namespace Combinator

def stage : Combinator → Stage
  | map f => .map f
  | tryMap f => .tryMap f
  | andThen usesPeer f => .andThen usesPeer fun v => .ready (f v)
  | timeout after deadline => .timeout after deadline

/-- The promise that is derived from another one. Only a poll sets a deadline. -/
def derive : Combinator → Promise → Promise
  | map f, up => up.map f
  | tryMap f, up => up.tryMap f
  | andThen usesPeer f, up => up.andThen usesPeer fun v => .ready (f v)
  | timeout after none, up => up.withTimeout after
  | timeout after (some deadline), up => .derived (.timeout after (some deadline)) up

/-- What a combinator makes of a value. -/
def apply : Combinator → Payload → Except RequestError Payload
  | map f, v => .ok (f v)
  | tryMap f, v | andThen _ f, v => f v
  | timeout .., v => .ok v

/-- The arguments with which the function of a combinator is called when a value comes to it. -/
def calls : Combinator → Payload → List Payload
  | timeout .., _ => []
  | _, v => [v]

/-- Its time is not over. A deadline that is not set yet counts from now. -/
def Unexpired (now : Nat) : Combinator → Prop
  | timeout after deadline => now < deadline.getD (now + after)
  | _ => True

/-- Sets the deadline, as the first poll does. -/
def start (now : Nat) : Combinator → Combinator
  | timeout after deadline => timeout after (some (deadline.getD (now + after)))
  | c => c

/-- The functions from left to right. The first error ends it. -/
def compose (cs : List Combinator) (r : Except RequestError Payload) :
    Except RequestError Payload :=
  cs.foldl (fun r c => r >>= c.apply) r

/-- The arguments with which the functions are called then, in order. -/
def composeCalls : List Combinator → Except RequestError Payload → List Payload
  | _, .error _ => []
  | [], .ok _ => []
  | c :: cs, .ok v => c.calls v ++ composeCalls cs (c.apply v)

end Combinator

def Promise.chain (root : Promise) (cs : List Combinator) : Promise :=
  cs.foldl (fun up c => c.derive up) root

/-- The arguments with which a stage calls its function, given what the poll of its upstream has
found. -/
def Stage.calls : Stage → Poll → List Payload
  | .map _, .ready (.ok v) | .tryMap _, .ready (.ok v) | .andThen _ _, .ready (.ok v) => [v]
  | _, _ => []

/-- The arguments with which a poll calls the functions of a promise, in order. Stages above a
cancelled node are not come to. -/
def Peer.polledCalls (p : Peer) : Promise → List Payload
  | .reply _ | .failed .. => []
  | .continued t d next => if p.isCancelled ⟨t, d⟩ then [] else p.polledCalls next
  | .derived stage up =>
    if p.isCancelled (Promise.derived stage up).node then []
    else p.polledCalls up ++ stage.calls (p.poll up).1

theorem Combinator.derive_eq (c : Combinator) (up : Promise) :
    c.derive up = .derived c.stage up := by
  cases c with
  | map | tryMap | andThen => rfl
  | timeout after deadline => cases deadline <;> rfl

namespace Promise

theorem chain_append (root : Promise) (cs ds : List Combinator) :
    root.chain (cs ++ ds) = (root.chain cs).chain ds :=
  List.foldl_append

theorem chain_snoc (root : Promise) (cs : List Combinator) (c : Combinator) :
    root.chain (cs ++ [c]) = .derived c.stage (root.chain cs) :=
  (root.chain_append cs [c]).trans (c.derive_eq _)

/-- A node of a chain is known by the number of combinators above the root. -/
theorem node_chain (t : Nat) (cs : List Combinator) :
    ((reply t).chain cs).node = ⟨t, cs.length⟩ := by
  induction cs using List.reverseRecOn with
  | nil => rfl
  | append_singleton cs c ih =>
    rw [chain_snoc, node, ih, List.length_append]
    rfl

end Promise

namespace Combinator

theorem compose_snoc (cs : List Combinator) (c : Combinator) (r : Except RequestError Payload) :
    compose (cs ++ [c]) r = compose cs r >>= c.apply := by
  rw [compose, List.foldl_append]
  rfl

theorem compose_error (cs : List Combinator) (e : RequestError) :
    compose cs (.error e) = .error e := by
  induction cs with
  | nil => rfl
  | cons c cs ih => exact ih

theorem composeCalls_error (cs : List Combinator) (e : RequestError) :
    composeCalls cs (.error e) = [] := by
  cases cs <;> rfl

theorem composeCalls_snoc (cs : List Combinator) (c : Combinator)
    (r : Except RequestError Payload) :
    composeCalls (cs ++ [c]) r =
      composeCalls cs r ++ c.stage.calls (.ready (compose cs r)) := by
  have hcalls : ∀ v, c.stage.calls (.ready (.ok v)) = c.calls v := by cases c <;> exact fun _ => rfl
  have hnone : ∀ e, c.stage.calls (.ready (.error e)) = [] := by cases c <;> exact fun _ => rfl
  induction cs generalizing r with
  | nil =>
    cases r with
    | error e => exact (hnone e).symm
    | ok v =>
      change c.calls v ++ composeCalls [] (c.apply v) = c.stage.calls (.ready (.ok v))
      rw [hcalls]
      cases c.apply v <;> exact List.append_nil _
  | cons d cs ih =>
    cases r with
    | error e =>
      rw [composeCalls_error, composeCalls_error, compose_error, hnone]
      rfl
    | ok v =>
      change d.calls v ++ composeCalls (cs ++ [c]) (d.apply v) =
        d.calls v ++ composeCalls cs (d.apply v) ++ _
      rw [ih, List.append_assoc]
      rfl

end Combinator

namespace Peer
variable {p : Peer} {t : Nat}

theorem isCancelled_mono {d d' : Nat} (hd : d ≤ d') (h : p.isCancelled ⟨t, d⟩ = true) :
    p.isCancelled ⟨t, d'⟩ = true := by
  unfold isCancelled Ticket.isCancelled at *
  cases hc : (p.ticket t).cancelledFrom with
  | none => simp [hc] at h
  | some k =>
    simp only [hc, Option.any_some, decide_eq_true_eq] at h ⊢
    exact h.trans hd

/-- If the last node of a chain is cancelled, nothing below it is looked at. -/
theorem poll_chain_of_cancelled (cs : List Combinator)
    (hc : p.isCancelled ⟨t, cs.length⟩ = true) :
    p.poll ((Promise.reply t).chain cs) = (.cancelled, p) ∧
      p.polledCalls ((Promise.reply t).chain cs) = [] := by
  have hnode := Promise.node_chain t cs
  rcases List.eq_nil_or_concat' cs with rfl | ⟨ds, c, rfl⟩
  · have hr : p.replyOf t = .cancelled := if_pos hc
    exact ⟨congrArg (·, p) hr, rfl⟩
  · rw [Promise.chain_snoc] at hnode ⊢
    rw [poll, polledCalls, hnode, if_pos hc, if_pos hc]
    exact ⟨rfl, rfl⟩

/-- Otherwise a stage is applied to what the poll of its upstream gives. -/
theorem poll_chain_snoc (cs : List Combinator) (c : Combinator)
    (hc : p.isCancelled ⟨t, cs.length + 1⟩ = false) {r : Poll}
    (hp : p.poll ((Promise.reply t).chain cs) = (r, p)) :
    p.poll ((Promise.reply t).chain (cs ++ [c])) =
        p.pollStage ⟨t, cs.length + 1⟩ p.clock c.stage r ∧
      p.polledCalls ((Promise.reply t).chain (cs ++ [c])) =
        p.polledCalls ((Promise.reply t).chain cs) ++ c.stage.calls r := by
  have hnode := Promise.node_chain t (cs ++ [c])
  rw [List.length_append, List.length_singleton] at hnode
  rw [Promise.chain_snoc] at hnode ⊢
  have hno : ¬ p.isCancelled ⟨t, cs.length + 1⟩ = true := by simp [hc]
  rw [poll, polledCalls, hnode, hp, if_neg hno, if_neg hno]
  exact ⟨rfl, rfl⟩

theorem pollStage_ready (p : Peer) (n : Node) (started : Nat) (c : Combinator)
    (r : Except RequestError Payload) :
    p.pollStage n started c.stage (.ready r) = (.ready (r >>= c.apply), p) := by
  cases r with
  | error e => cases c <;> rfl
  | ok v => cases c <;> rfl

theorem pollStage_pending (p : Peer) (n : Node) {c : Combinator} (h : c.Unexpired p.clock)
    (up : Promise) :
    p.pollStage n p.clock c.stage (.pending up) =
      (.pending (.derived (c.start p.clock).stage up), p) := by
  cases c with
  | map | tryMap | andThen => rfl
  | timeout after deadline =>
    have hno : ¬ deadline.getD (p.clock + after) ≤ p.clock := Nat.not_le_of_lt h
    exact if_neg hno

/-- A reply that is there is passed through the functions. -/
theorem poll_chain_of_ready {r : Except RequestError Payload} (hr : p.replyOf t = .ready r)
    (cs : List Combinator) (hc : p.isCancelled ⟨t, cs.length⟩ = false) :
    p.poll ((Promise.reply t).chain cs) = (.ready (Combinator.compose cs r), p) ∧
      p.polledCalls ((Promise.reply t).chain cs) = Combinator.composeCalls cs r := by
  induction cs using List.reverseRecOn with
  | nil => exact ⟨congrArg (·, p) hr, by cases r <;> rfl⟩
  | append_singleton cs c ih =>
    rw [List.length_append] at hc
    have hup : p.isCancelled ⟨t, cs.length⟩ = false :=
      Bool.eq_false_iff.mpr fun h => by simp [isCancelled_mono (Nat.le_succ _) h] at hc
    obtain ⟨hpoll, hcalls⟩ := ih hup
    obtain ⟨hpoll', hcalls'⟩ := poll_chain_snoc cs c hc hpoll
    rw [hpoll', hcalls', pollStage_ready, hcalls, Combinator.compose_snoc,
      Combinator.composeCalls_snoc]
    exact ⟨rfl, rfl⟩

/-- While the reply is waited for, a poll calls no function and sets the deadlines. -/
theorem poll_chain_of_waiting (hr : p.replyOf t = .pending (.reply t)) (cs : List Combinator)
    (hc : p.isCancelled ⟨t, cs.length⟩ = false) (hu : ∀ c ∈ cs, c.Unexpired p.clock) :
    p.poll ((Promise.reply t).chain cs) =
        (.pending ((Promise.reply t).chain (cs.map (·.start p.clock))), p) ∧
      p.polledCalls ((Promise.reply t).chain cs) = [] := by
  induction cs using List.reverseRecOn with
  | nil => exact ⟨congrArg (·, p) hr, rfl⟩
  | append_singleton cs c ih =>
    rw [List.length_append] at hc
    have hup : p.isCancelled ⟨t, cs.length⟩ = false :=
      Bool.eq_false_iff.mpr fun h => by simp [isCancelled_mono (Nat.le_succ _) h] at hc
    obtain ⟨hpoll, hcalls⟩ := ih hup fun d hd => hu d (List.mem_append_left _ hd)
    obtain ⟨hpoll', hcalls'⟩ := poll_chain_snoc cs c hc hpoll
    have hnone : ∀ up, c.stage.calls (.pending up) = [] := by cases c <;> exact fun _ => rfl
    rw [hpoll', hcalls', hcalls, hnone, pollStage_pending _ _ (hu c (by simp)), List.map_append,
      List.map_singleton, Promise.chain_snoc]
    exact ⟨rfl, rfl⟩

theorem promise_request (p : Peer) (method : String) (params : Payload) :
    (p.request method params).1 = .reply p.tickets.length := by
  unfold request
  simp only
  split <;> rfl

theorem replyOf_eq (h : p.isCancelled ⟨t, 0⟩ = false) :
    p.replyOf t = match (p.ticket t).reply with
      | .waiting => .pending (.reply t)
      | .arrived (.ok v) => .ready (.ok v)
      | .arrived (.error e) => .ready (.error (.response e))
      | .lost => .ready (.error .channelClosed) :=
  if_neg (by simp [h])

/-- A poll of a chain over a request, after any run. If a node of the chain was cancelled, it gives
the cancellation and calls no function. Otherwise, if the response came first, it gives what the
functions make of it, up to the first error. Otherwise the request is lost if it was given up, could
not be sent or was cancelled below the chain, and else it is pending. A node counts as cancelled
exactly if it or a node that it is derived from was cancelled. -/
theorem poll_chain_decides (p : Peer) (hp : p.Fresh) (as : List Act) (hn : drawn p as < 2 ^ 63)
    (s : Sending as) (cs : List Combinator) (now : Nat) :
    let q : Peer := { run p as with clock := now }
    let root := ((run p s.before).request s.method s.params).1
    (s.Cancelled p cs.length →
      q.poll (root.chain cs) = (.cancelled, q) ∧ q.polledCalls (root.chain cs) = []) ∧
    (¬ s.Cancelled p cs.length → ∀ o, s.Delivered p o →
      q.poll (root.chain cs) =
          (.ready (Combinator.compose cs (o.reply.mapError .response)), q) ∧
        q.polledCalls (root.chain cs) =
          Combinator.composeCalls cs (o.reply.mapError .response)) ∧
    (¬ s.Cancelled p cs.length → (∀ o, ¬ s.Delivered p o) →
      (¬ s.Accepted p ∨ .abandon ∈ s.after ∨ ∃ d, s.Cancelled p d) →
        q.poll (root.chain cs) = (.ready (.error .channelClosed), q) ∧
          q.polledCalls (root.chain cs) = []) ∧
    ((∀ d, ¬ s.Cancelled p d) → (∀ o, ¬ s.Delivered p o) → s.Accepted p →
      .abandon ∉ s.after → (∀ c ∈ cs, c.Unexpired now) →
        q.poll (root.chain cs) = (.pending (root.chain (cs.map (·.start now))), q) ∧
          q.polledCalls (root.chain cs) = []) ∧
    (∀ ds, (root.chain ds).node = ⟨s.ticket p, ds.length⟩ ∧
      (q.isCancelled (root.chain ds).node = true ↔ s.Cancelled p ds.length)) ∧
    ∀ (q : Peer) (n m : Node), m.ticket < q.tickets.length →
      ((q.cancel n).isCancelled m = true ↔
        q.isCancelled m = true ∨ n.ticket = m.ticket ∧ n.depth ≤ m.depth) := by
  intro q root
  have hroot : root = .reply (s.ticket p) := promise_request ..
  have hmark : ∀ d, q.isCancelled ⟨s.ticket p, d⟩ = true ↔ s.Cancelled p d :=
    s.isCancelled_iff hp hn
  obtain ⟨harrived, hwaiting, hlost⟩ := s.reply_eq hp hn
  have hfree : ¬ s.Cancelled p cs.length → q.isCancelled ⟨s.ticket p, cs.length⟩ = false ∧
      q.isCancelled ⟨s.ticket p, 0⟩ = false := by
    intro hc
    rw [← hmark] at hc
    refine ⟨Bool.eq_false_iff.mpr hc, Bool.eq_false_iff.mpr fun h => hc ?_⟩
    exact isCancelled_mono (Nat.zero_le _) h
  rw [hroot]
  refine ⟨?_, ?_, ?_, ?_, ?_, ?_⟩
  · intro hc
    exact poll_chain_of_cancelled cs ((hmark _).mpr hc)
  · intro hc o ho
    obtain ⟨hleaf, hzero⟩ := hfree hc
    refine poll_chain_of_ready ?_ cs hleaf
    have hr : (q.ticket (s.ticket p)).reply = .arrived o.reply := harrived o ho
    rw [replyOf_eq hzero, hr]
    cases o.reply <;> rfl
  · intro hc hno hended
    obtain ⟨hleaf, hzero⟩ := hfree hc
    have hr : (q.ticket (s.ticket p)).reply = .lost := hlost hno (s.not_spared_after hended)
    have hready : q.replyOf (s.ticket p) = .ready (.error .channelClosed) := by
      rw [replyOf_eq hzero, hr]
    have h := poll_chain_of_ready hready cs hleaf
    rwa [Combinator.compose_error, Combinator.composeCalls_error] at h
  · intro hc hno ha hab hu
    obtain ⟨hleaf, hzero⟩ := hfree (hc _)
    have hr : (q.ticket (s.ticket p)).reply = .waiting :=
      hwaiting ha (s.spared_after hno ha hab hc)
    exact poll_chain_of_waiting (by rw [replyOf_eq hzero, hr]) cs hleaf hu
  · intro ds
    rw [Promise.node_chain]
    exact ⟨rfl, hmark _⟩
  · intro q n m hm
    rw [isCancelled_cancel q n hm, Bool.or_eq_true, Act.marks, Bool.and_eq_true, beq_iff_eq,
      decide_eq_true_eq]

/-- The second of three functions fails on a result that has come. -/
theorem poll_chain_decides_first_error :
    let p : Peer := { codec := ⟨.base, ⟨[]⟩, 1⟩, service := .empty "" }
    let o : Outcome := .result (.json (.int 2))
    let as : List Act :=
      [.request "shout" .absent, .consume (.response (some (.text "1")) none o)]
    let cs : List Combinator :=
      [.map fun _ => .absent, .tryMap fun _ => .error .timeout, .andThen false .ok]
    (run p as).poll ((Promise.reply 0).chain cs) = (.ready (.error .timeout), run p as) ∧
      (run p as).polledCalls ((Promise.reply 0).chain cs) = [.json (.int 2), .absent] := by
  intro p o as cs
  have hn : drawn p as < 2 ^ 63 := Nat.lt_of_le_of_lt (drawn_le_length p as) (by decide)
  let s : Sending as := ⟨[], "shout", .absent, as.tail, rfl⟩
  obtain ⟨-, hdelivered, -⟩ :=
    poll_chain_decides p ⟨rfl, rfl, rfl, rfl, rfl, rfl⟩ as hn s cs (run p as).clock
  have hid : s.id p = .text "1" := by decide
  have hsplit : s.after = [] ++ .consume (.response (some (s.id p)) none o) :: [] := by
    rw [hid]
    rfl
  have hnot : ¬ s.Cancelled p cs.length := by
    rintro ⟨n, hmem, -⟩
    simp [s, as] at hmem
  have h := hdelivered hnot o ⟨rfl, [], none, [], hsplit, by simp [Sending.Spared]⟩
  exact h

end Peer
end RpcPeer
