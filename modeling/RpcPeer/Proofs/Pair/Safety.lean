import RpcPeer.Proofs.Pair.Runs

/-! Safety of two peers that are joined. -/
namespace RpcPeer

namespace Link

variable {s : Side} {ids : List MessageId} {C : Nat → Prop} {a b : Ledger Origin}

theorem account_le (h : Link s ids C a b) (t : Nat) :
    (b.responses (s, t)).length + (b.inFlight (s, t)).length + (b.silences (s, t)).length ≤ 1 := by
  have hb := h.balance t
  rw [Ledger.account] at hb
  split at hb <;> omega

/-- A response that was taken is the only one for its request. -/
theorem responses_eq (h : Link s ids C a b) {t : Nat} {m : Message}
    (hm : (some (s, t), m) ∈ b.taken) (hr : m.isResponse = true) : b.responses (s, t) = [m] := by
  have hmem : m ∈ b.responses (s, t) := by
    refine List.mem_map.mpr ⟨(some (s, t), m), List.mem_filter.mpr ⟨?_, by simp [hr]⟩, rfl⟩
    exact List.mem_append_left _ hm
  have hpos : 0 < (b.responses (s, t)).length := List.length_pos_of_mem hmem
  have hle := h.account_le t
  have hone : (b.responses (s, t)).length = 1 := by omega
  obtain ⟨x, hx⟩ := List.length_eq_one_iff.mp hone
  rw [hx] at hmem ⊢
  rw [List.mem_singleton.mp hmem]

/-- When everything has come to rest, the other peer has withdrawn from a request that is open. -/
theorem silences_eq (h : Link s ids C a b) (ha : a.queue = []) (hb : b.queue = [])
    (hc : b.peer.calls = []) {r : PendingRequest} (hr : r ∈ a.peer.pending) :
    b.silences (s, r.ticket) = [.withdrawn] := by
  have hopen : a.peer.tables.openId? r.ticket = some r.id := h.coherent.openId?_of_mem hr
  have hlt : r.ticket < ids.length := (List.getElem?_eq_some_iff.mp (h.coherent.own _ _ hopen)).1
  have hbalance := h.balance r.ticket
  rw [if_pos hlt, Ledger.account] at hbalance
  have hasked : a.asked (s, r.ticket) = 0 := by simp [Ledger.asked, ha]
  have hflight : (b.inFlight (s, r.ticket)).length = 0 := by simp [Ledger.inFlight, hc]
  -- a response would have been taken, and would have closed the request
  have hresponses : b.responses (s, r.ticket) = [] := by
    apply List.eq_nil_iff_forall_not_mem.mpr
    intro m hm
    obtain ⟨e, he, rfl⟩ := List.mem_map.mp hm
    rw [hb, List.append_nil, List.mem_filter, Bool.and_eq_true, decide_eq_true_iff] at he
    have hclosed := h.taken e he.1 he.2.2 _ he.2.1
    rw [hopen] at hclosed
    exact absurd hclosed (by simp)
  have hone : (b.silences (s, r.ticket)).length = 1 := by
    rw [hresponses, List.length_nil] at hbalance
    omega
  obtain ⟨why, hwhy⟩ := List.length_eq_one_iff.mp hone
  rw [hwhy]
  have hmem : why ∈ b.silences (s, r.ticket) := hwhy ▸ List.mem_singleton_self why
  obtain ⟨e, he, rfl⟩ := List.mem_map.mp hmem
  rw [List.mem_filter, decide_eq_true_iff] at he
  obtain ⟨k, hk, hcancelled⟩ := h.sound.silences e he.1
  obtain rfl := Option.some.inj (he.2.symm.trans hk)
  cases hw : e.2 with
  | withdrawn => rfl
  | cancelled =>
    -- a call that was cancelled belongs to a request that is closed
    have hclosed := (hcancelled hw).2.closed
    rw [hopen] at hclosed
    exact absurd hclosed (by simp)

end Link

/-- After any run of two peers that are joined, a request has been completed once at most, by the
one response that the other peer has written for it; calls have been cancelled only if their
requests were; and if nothing is under way, the other peer has withdrawn, without having been asked
to, from each request that is still pending. -/
theorem joined_peers_safe (p : Pair) (hp : ∀ s, (p s).Fresh) (hl : ∀ s, (p s).listening = true)
    (as : List Move) (hn : ∀ s, p.drawn s as < 2 ^ 63) :
    let w := (Books.start p).run as
    w.peers = p.run as ∧ ∀ s,
      ((w.completed s).map (·.ticket)).Nodup ∧
      (∀ d ∈ w.completed s, d.cause = some (s, d.ticket) ∧ d.message.isResponse = true ∧
        (w.ledger s.other).responses (s, d.ticket) = [d.message]) ∧
      (∀ t r, (p.run as s).tables.arrived? t = some r ↔
        ∃ d ∈ w.completed s, d.ticket = t ∧ d.message.reply? = some r) ∧
      (∀ c ∈ (p.run as s).calls, ∃ t, (w.ledger s).cause c.key = some (s.other, t) ∧
        (c.cancelled = true → p.Cancelled as s.other t)) ∧
      ((∀ u, (p.run as u).outgoing = [] ∧ (p.run as u).calls = []) →
        ∀ r ∈ (p.run as s).pending, (w.ledger s.other).silences (s, r.ticket) = [.withdrawn]) := by
  intro w
  obtain ⟨hpeers, ids, -, h⟩ := joined_run hp hl as hn
  have hpeer : ∀ s, p.run as s = (w.ledger s).peer := fun s => (congrFun hpeers s).symm
  have hqueue : ∀ s, (p.run as s).outgoing = [] → (w.ledger s).queue = [] := by
    intro s hs
    rw [hpeer, ← (h.link_other s).sound.queue] at hs
    exact List.map_eq_nil_iff.mp hs
  refine ⟨hpeers, fun s => ⟨(h.completes s).once, ?_, ?_, ?_, ?_⟩⟩
  · intro d hd
    obtain ⟨hcause, hresponse, hmem⟩ := (h.completes s).caused d hd
    exact ⟨hcause, hresponse, (h.link s).responses_eq (hcause ▸ hmem) hresponse⟩
  · rw [hpeer]
    exact (h.completes s).arrived
  · intro c hc
    rw [hpeer] at hc
    obtain ⟨⟨u, t⟩, hk, ⟨hu, -⟩, hcancelled⟩ := (h.link_other s).sound.calls c hc
    obtain rfl : u = s.other := hu
    exact ⟨t, hk, fun hx => (hcancelled hx).2.cancelled⟩
  · intro hrest r hr
    rw [hpeer] at hr
    exact (h.link s).silences_eq (hqueue s (hrest s).1) (hqueue _ (hrest s.other).1)
      ((congrArg Peer.calls (hpeer s.other)).symm.trans (hrest s.other).2) hr

/-- Requests under the same id cross each other. One is refused, and the handler of the other one
reports a cancellation that nobody has asked for. -/
theorem joined_peers_safe_withdrawn :
    let p : Pair := fun _ =>
      { codec := ⟨.base, ⟨[⟨"wait", .request, .unit, some .unit⟩]⟩, 1⟩, service := .empty "" }
    let as : List Move :=
      [.request .left "wait" .absent, .request .right "shout" .absent, .deliver .left,
        .deliver .right, .deliver .left, .call .right 0 (.settle (.fault .cancelled))]
    let w := (Books.start p).run as
    (∀ s, (p s).Fresh) ∧ (∀ s, (p s).listening = true) ∧ (∀ s, p.drawn s as < 2 ^ 63) ∧
      (w.completed .right).map (·.ticket) = [0] ∧
      (∃ m, (w.ledger .left).responses (.right, 0) = [m]) ∧
      (p.run as .left).pending.map (·.ticket) = [0] ∧
      (w.ledger .right).silences (.left, 0) = [.withdrawn] := by
  intro p as w
  have hp : ∀ s, (p s).Fresh := fun _ => ⟨rfl, rfl, rfl, rfl, rfl, rfl⟩
  have hn : ∀ s, p.drawn s as < 2 ^ 63 := fun s =>
    Nat.lt_of_le_of_lt (Pair.drawn_le_length p s as) (by decide)
  have hcompleted : (w.completed .right).map (·.ticket) = [0] := by decide +kernel
  have hpending : (p.run as .left).pending.map (·.ticket) = [0] := by decide +kernel
  have hrest : ∀ u, (p.run as u).outgoing = [] ∧ (p.run as u).calls = [] := by
    have hlengths : ∀ u, (p.run as u).outgoing.length = 0 ∧ (p.run as u).calls.length = 0 := by
      rintro (_ | _) <;> decide +kernel
    exact fun u => ⟨List.length_eq_zero_iff.mp (hlengths u).1,
      List.length_eq_zero_iff.mp (hlengths u).2⟩
  obtain ⟨-, h⟩ := joined_peers_safe p hp (fun _ => rfl) as hn
  obtain ⟨-, hown, -, -, -⟩ := h .right
  obtain ⟨-, -, -, -, hsilent⟩ := h .left
  refine ⟨hp, fun _ => rfl, hn, hcompleted, ?_, hpending, ?_⟩
  · obtain ⟨d, hd, ht⟩ := List.mem_map.mp (hcompleted ▸ List.mem_singleton_self 0 :
      0 ∈ (w.completed .right).map (·.ticket))
    exact ⟨d.message, ht ▸ (hown d hd).2.2⟩
  · obtain ⟨r, hr, ht⟩ := List.mem_map.mp (hpending ▸ List.mem_singleton_self 0 :
      0 ∈ (p.run as .left).pending.map (·.ticket))
    exact ht ▸ hsilent hrest r hr

end RpcPeer
