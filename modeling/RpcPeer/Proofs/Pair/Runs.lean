import RpcPeer.Proofs.Pair.Link

/-! Two peers that are joined by two queues, and the books of both. -/
namespace RpcPeer

theorem Side.forall_iff (s : Side) {P : Side → Prop} : (∀ u, P u) ↔ P s ∧ P s.other := by
  constructor
  · exact fun h => ⟨h s, h s.other⟩
  · rintro ⟨hs, ho⟩ u
    cases s <;> cases u <;> assumption

@[simp] theorem Side.other_other (s : Side) : s.other.other = s := by cases s <;> rfl

@[simp] theorem Side.other_ne (s : Side) : s.other ≠ s := by cases s <;> exact nofun

/-- What can happen to two peers that are joined. -/
inductive Move
  | request (s : Side) (method : String) (params : Payload)
  | cancel (s : Side) (n : Node)
  | call (s : Side) (key : Nat) (m : CallMove)
  /-- A message is encoded, which may take a number from the counter of ids. -/
  | encode (s : Side) (m : Message)
  /-- The oldest outgoing message of a side reaches the other one. -/
  | deliver (s : Side)

abbrev Pair := Side → Peer

namespace Pair

def act (p : Pair) (s : Side) (a : Act) : Pair := Function.update p s ((p s).act a)

def step (p : Pair) : Move → Pair
  | .request s method params => p.act s (.request method params)
  | .cancel s n => p.act s (.cancel n)
  | .call s key m => p.act s (.call key m)
  | .encode s m => p.act s (.encode m)
  | .deliver s =>
    match (p s).outgoing with
    | [] => p
    | m :: _ => act (Function.update p s (p s).pop) s.other (.consume m)

def run (p : Pair) (as : List Move) : Pair := as.foldl step p

/-- How many numbers the peer of a side takes from its counter of ids. -/
def drawn (p : Pair) (s : Side) : List Move → Nat
  | [] => 0
  | a :: as => (p s).codec.takenUntil (p.step a s).codec + (p.step a).drawn s as

/-- The user of a side has cancelled the request of a ticket that had been sent there. -/
def Cancelled (p : Pair) (as : List Move) (s : Side) (t : Nat) : Prop :=
  ∃ before n after, as = before ++ .cancel s n :: after ∧ n.ticket = t ∧
    t < (p.run before s).tickets.length

def sentIds (p : Pair) (s : Side) : Move → List MessageId
  | .request u .. => if u = s then [(p s).codec.drawId.1] else []
  | _ => []

theorem run_concat (p : Pair) (as : List Move) (a : Move) :
    p.run (as ++ [a]) = (p.run as).step a := by
  simp [run]

theorem drawn_concat (p : Pair) (s : Side) (as : List Move) (a : Move) :
    p.drawn s (as ++ [a]) =
      p.drawn s as + (p.run as s).codec.takenUntil ((p.run as).step a s).codec := by
  induction as generalizing p with
  | nil => simp [drawn, run]
  | cons b as ih => simp [drawn, run, ih, Nat.add_assoc]

theorem drawn_le_length (p : Pair) (s : Side) (as : List Move) : p.drawn s as ≤ as.length := by
  induction as generalizing p with
  | nil => simp [drawn]
  | cons a as ih =>
    have h := ih (p.step a)
    have ht : (p s).codec.takenUntil (p.step a s).codec ≤ 1 := by
      unfold Codec.takenUntil
      split <;> omega
    simp only [drawn, List.length_cons]
    omega

theorem Cancelled.concat {p : Pair} {as : List Move} {s : Side} {t : Nat} (h : p.Cancelled as s t)
    (a : Move) : p.Cancelled (as ++ [a]) s t := by
  obtain ⟨before, n, after, rfl, hn, ht⟩ := h
  exact ⟨before, n, after ++ [a], by simp, hn, ht⟩

/-- On each side a move is an act of the peer there, or takes a message of it. -/
theorem step_eq (p : Pair) (a : Move) (s : Side) :
    (p.step a s).codec = (p s).codec ∧ p.sentIds s a = [] ∨
      ∃ x, p.step a s = (p s).act x ∧ p.sentIds s a = (p s).sentIds x := by
  -- an act of either peer
  have hact : ∀ (q : Pair) (u : Side) (x : Act), (q s).codec = (p s).codec →
      (u = s → q s = p s ∧ p.sentIds s a = (p s).sentIds x) → (u ≠ s → p.sentIds s a = []) →
      (q.act u x s).codec = (p s).codec ∧ p.sentIds s a = [] ∨
        ∃ y, q.act u x s = (p s).act y ∧ p.sentIds s a = (p s).sentIds y := by
    intro q u x hc heq hne
    by_cases hu : u = s
    · subst hu
      obtain ⟨hq, hs⟩ := heq rfl
      exact .inr ⟨x, by simp [act, hq], hs⟩
    · refine .inl ⟨?_, hne hu⟩
      rw [act, Function.update_of_ne (Ne.symm hu), hc]
  cases a with
  | request u method params =>
    exact hact p u (.request method params) rfl
      (fun hu => ⟨rfl, by simp [sentIds, hu, Peer.sentIds, Act.isRequest]⟩) fun hu => if_neg hu
  | cancel u n => exact hact p u (.cancel n) rfl (fun _ => ⟨rfl, rfl⟩) fun _ => rfl
  | call u key m => exact hact p u (.call key m) rfl (fun _ => ⟨rfl, rfl⟩) fun _ => rfl
  | encode u m => exact hact p u (.encode m) rfl (fun _ => ⟨rfl, rfl⟩) fun _ => rfl
  | deliver u =>
    cases hq : (p u).outgoing with
    | nil => exact .inl ⟨by simp only [step, hq], rfl⟩
    | cons m rest =>
      simp only [step, hq]
      refine hact _ u.other (.consume m) ?_ (fun hu => ⟨?_, rfl⟩) fun _ => rfl
      · by_cases hu : s = u
        · simp [hu, Peer.pop]
        · rw [Function.update_of_ne hu]
      · exact Function.update_of_ne (fun hs => Side.other_ne u (hu.trans hs)) ..

theorem numbered_step {p : Pair} {s : Side} {c : Codec} {n : Nat} {ids sent : List MessageId}
    (h : (p s).tables.Coherent ids) (hc : c.Numbered (p s).codec n sent) (a : Move) :
    c.Numbered (p.step a s).codec (n + (p s).codec.takenUntil (p.step a s).codec)
      (sent ++ p.sentIds s a) := by
  rcases p.step_eq a s with ⟨ha, hs⟩ | ⟨x, hx, hs⟩
  · rw [ha, hs]
    simpa [Codec.takenUntil] using hc
  · rw [hx, hs]
    exact Peer.numbered_act h x hc

end Pair

structure Books where
  ledger : Side → Ledger Origin
  /-- The responses that have completed requests of a side. -/
  completed : Side → List Completion

namespace Books

def start (p : Pair) : Books := ⟨fun s => { peer := p s }, fun _ => []⟩

def peers (w : Books) : Pair := fun s => (w.ledger s).peer

def set (w : Books) (s : Side) (l : Ledger Origin) : Books :=
  { w with ledger := Function.update w.ledger s l }

def step (w : Books) : Move → Books
  | .request s method params =>
    w.set s ((w.ledger s).advance (some (s, (w.ledger s).peer.tickets.length))
      ((w.ledger s).peer.request method params).2)
  | .cancel s n =>
    w.set s ((w.ledger s).advance (some (s, n.ticket)) ((w.ledger s).peer.cancel n))
  | .call s key m => w.set s ((w.ledger s).move key m)
  | .encode s m => w.set s ((w.ledger s).advance none ((w.ledger s).peer.act (.encode m)))
  | .deliver s =>
    match (w.ledger s).queue with
    | [] => w
    | (k, m) :: _ =>
      let q := w.ledger s.other
      { ledger := Function.update (Function.update w.ledger s (w.ledger s).pop) s.other
          (q.advance k (q.peer.consume m))
        completed := Function.update w.completed s.other
          (w.completed s.other ++ (q.peer.completes? m).toList.map fun t => ⟨t, k, m⟩) }

def run (w : Books) (as : List Move) : Books := as.foldl step w

@[simp] theorem ledger_set (w : Books) (s : Side) (l : Ledger Origin) :
    (w.set s l).ledger s = l := Function.update_self ..

@[simp] theorem ledger_set_other (w : Books) (s : Side) (l : Ledger Origin) :
    (w.set s l).ledger s.other = w.ledger s.other := Function.update_of_ne (Side.other_ne s) ..

theorem run_concat (w : Books) (as : List Move) (a : Move) :
    w.run (as ++ [a]) = (w.run as).step a := by
  simp [run]

/-- The books do not get in the way of the peers. -/
theorem peers_step {w : Books} (hq : ∀ s, (w.ledger s).queue.map (·.2) = (w.ledger s).peer.outgoing)
    (a : Move) : (w.step a).peers = w.peers.step a := by
  have hset : ∀ (s : Side) (l : Ledger Origin),
      (w.set s l).peers = Function.update w.peers s l.peer := fun s l =>
    funext fun u => Function.apply_update (fun _ l => Ledger.peer l) w.ledger s l u
  cases a with
  | request s | cancel s | call s | encode s => exact hset s _
  | deliver s =>
    have hs := hq s
    cases h : (w.ledger s).queue with
    | nil =>
      have ho : (w.peers s).outgoing = [] := by rw [peers, ← hs, h]; rfl
      simp only [step, Pair.step, h, ho]
    | cons e rest =>
      obtain ⟨k, m⟩ := e
      have ho : (w.peers s).outgoing = m :: rest.map (·.2) := by rw [peers, ← hs, h]; rfl
      simp only [step, Pair.step, h, ho]
      funext u
      refine (Function.apply_update (fun _ l => Ledger.peer l) _ _ _ u).trans ?_
      have hpop : (fun u => (Function.update w.ledger s (w.ledger s).pop u).peer) =
          Function.update w.peers s (w.peers s).pop := funext fun u =>
        Function.apply_update (fun _ l => Ledger.peer l) w.ledger s _ u
      have hother : Function.update w.peers s (w.peers s).pop s.other = w.peers s.other :=
        Function.update_of_ne (Side.other_ne s) ..
      rw [hpop, Pair.act, hother]
      rfl

end Books

/-- Both directions are in order, and so are the responses that have arrived. -/
structure Joined (C : Side → Nat → Prop) (ids : Side → List MessageId) (w : Books) : Prop where
  link : ∀ s, Link s (ids s) (C s) (w.ledger s) (w.ledger s.other)
  completes : ∀ s, Completes s (w.ledger s) (w.ledger s.other) (w.completed s)

namespace Joined

variable {C C' : Side → Nat → Prop} {ids ids' : Side → List MessageId} {w : Books}

theorem start {p : Pair} (hp : ∀ s, (p s).Fresh) (hl : ∀ s, (p s).listening = true) :
    Joined C (fun _ => []) (Books.start p) where
  link := fun s => .start (hp s) (hp s.other) (hl s.other)
  completes := fun s => .start (hp s)

theorem mono (h : Joined C ids w) (hC : ∀ s t, C s t → C' s t) : Joined C' ids w where
  link := fun s =>
    (h.link s).caller (.of_eq rfl rfl rfl rfl) (hC s) (fun _ he _ => .inl he) fun _ => rfl
  completes := h.completes

theorem link_other (h : Joined C ids w) (s : Side) :
    Link s.other (ids s.other) (C s.other) (w.ledger s.other) (w.ledger s) := by
  have := h.link s.other
  rwa [Side.other_other] at this

theorem of_forall_iff (s : Side)
    (hl : Link s (ids s) (C s) (w.ledger s) (w.ledger s.other))
    (hl' : Link s.other (ids s.other) (C s.other) (w.ledger s.other) (w.ledger s))
    (hc : Completes s (w.ledger s) (w.ledger s.other) (w.completed s))
    (hc' : Completes s.other (w.ledger s.other) (w.ledger s) (w.completed s.other)) :
    Joined C ids w where
  link := (Side.forall_iff s).mpr ⟨hl, by rwa [Side.other_other]⟩
  completes := (Side.forall_iff s).mpr ⟨hc, by rwa [Side.other_other]⟩

/-- One peer does something on its own. -/
theorem set (h : Joined C ids w) (s : Side) {l : Ledger Origin}
    (hids : ids' s.other = ids s.other)
    (hl : Link s (ids' s) (C s) l (w.ledger s.other))
    (hl' : Link s.other (ids s.other) (C s.other) (w.ledger s.other) l)
    (ha : ∀ t, l.peer.tables.arrived? t = (w.ledger s).peer.tables.arrived? t)
    (ht : l.taken = (w.ledger s).taken) : Joined C ids' (w.set s l) := by
  have hc' := h.completes s.other
  rw [Side.other_other] at hc'
  refine of_forall_iff s ?_ ?_ ?_ ?_
  · rwa [Books.ledger_set, Books.ledger_set_other]
  · rwa [Books.ledger_set, Books.ledger_set_other, hids]
  · rw [Books.ledger_set, Books.ledger_set_other]
    exact (h.completes s).frame ha fun _ he => he
  · rw [Books.ledger_set, Books.ledger_set_other]
    exact hc'.frame (fun _ => rfl) fun _ he => ht.symm ▸ he

theorem request (h : Joined C ids w) (s : Side) (method : String) (params : Payload)
    (hid : (w.ledger s).peer.codec.drawId.1 ∉ ids s) :
    Joined C (fun u => ids u ++ w.peers.sentIds u (.request s method params))
      (w.step (.request s method params)) := by
  obtain ⟨k, he, -⟩ := Peer.tables_request (w.ledger s).peer method params
  obtain ⟨ms, hkeeps⟩ : ∃ ms, Tables.KeepsCalls (w.ledger s).peer.tables
      ((w.ledger s).peer.request method params).2.tables ms id := by
    rw [he]
    refine ⟨_, .of_calls_eq rfl (fun m hm => ?_) rfl rfl rfl rfl⟩
    split at hm
    next => exact List.mem_singleton.mp hm ▸ rfl
    next => exact absurd hm List.not_mem_nil
  refine h.set s ?_ ?_ ?_ (Peer.arrived?_request method params) rfl
  · have hne : ¬ s = s.other := fun hs => Side.other_ne s hs.symm
    simp [Pair.sentIds, hne]
  · simpa [Pair.sentIds, Books.peers] using
      (h.link s).request (h.link_other s).sound.listening method params hid
  · exact (h.link_other s).keep hkeeps fun _ _ hc => .inl hc

theorem cancel (h : Joined C ids w) (s : Side) (n : Node)
    (hn : n.ticket < (ids s).length → C s n.ticket) : Joined C ids (w.step (.cancel s n)) := by
  obtain ⟨ts, ps, qs, ht⟩ := Peer.frame_cancel (h.link s).coherent n
  obtain ⟨ms, ho, hms⟩ := Peer.written_cancel (h.link s).coherent n
  have hkeeps : Tables.KeepsCalls (w.ledger s).peer.tables
      ((w.ledger s).peer.cancel n).tables ms id := by
    have hqs : qs = (w.ledger s).peer.outgoing ++ ms :=
      (congrArg Tables.outgoing ht).symm.trans ho
    rw [ht]
    refine .of_calls_eq hqs (fun m hm => ?_) rfl rfl rfl rfl
    obtain ⟨i, -, rfl⟩ := hms m hm
    rfl
  refine h.set s rfl ?_ ?_ (Peer.arrived?_cancel (h.link s).coherent n) rfl
  · exact (h.link s).cancel n (fun _ ht => ht) hn
  · exact (h.link_other s).keep hkeeps fun _ _ hc => .inl hc

theorem call (h : Joined C ids w) (s : Side) (key : Nat) (m : CallMove) :
    Joined C ids (w.step (.call s key m)) := by
  have hs := (h.link_other s).sound
  obtain ⟨es, hqueue, hes⟩ := Ledger.queue_move hs.owned key m
  obtain ⟨ms, cs, ht, -⟩ := Peer.frame_moveCall hs.owned key m
  have htickets : ((w.ledger s).peer.moveCall key m).tickets = (w.ledger s).peer.tickets :=
    congrArg Tables.tickets ht
  refine h.set s rfl ?_ ?_ (fun t => ?_) rfl
  · exact (h.link s).respond (Peer.closes_moveCall (h.link s).coherent key m) hqueue hes
  · exact (h.link_other s).server (hs.move key m) (fun _ => hs.account_move key m _)
      fun _ he _ => he
  · exact congrArg (fun l : List Ticket => l[t]?.bind Ticket.arrived?) htickets

theorem encode (h : Joined C ids w) (s : Side) (m : Message) :
    Joined C ids (w.step (.encode s m)) := by
  have hout : ((w.ledger s).peer.act (.encode m)).outgoing = (w.ledger s).peer.outgoing ++ [] :=
    (List.append_nil _).symm
  refine h.set s rfl ?_ ?_ (fun _ => rfl) rfl
  · exact (h.link s).respond (.of_eq rfl rfl rfl rfl) (Ledger.queue_advance hout) (by simp)
  · refine (h.link_other s).keep (.of_calls_eq hout (by simp) rfl rfl rfl rfl) fun _ _ hc => .inl hc

theorem deliver (h : Joined C ids w) (s : Side) : Joined C ids (w.step (.deliver s)) := by
  unfold Books.step
  cases hq : (w.ledger s).queue with
  | nil => simpa only [hq] using h
  | cons e rest =>
    obtain ⟨k, m⟩ := e
    have hc := h.completes s.other
    rw [Side.other_other] at hc
    have hne : s ≠ s.other := fun hs => Side.other_ne s hs.symm
    simp only [hq]
    refine of_forall_iff s ?_ ?_ ?_ ?_
    · simpa [Function.update_of_ne hne] using (h.link s).deliver hq
    · simpa [Function.update_of_ne hne] using (h.link_other s).deliver_back hq
    · have hframe : Completes s (w.ledger s).pop
          ((w.ledger s.other).advance k ((w.ledger s.other).peer.consume m)) (w.completed s) :=
        (h.completes s).frame (fun _ => rfl) fun _ he => he
      simpa [Function.update_of_ne hne] using hframe
    · simpa [Function.update_of_ne hne] using hc.deliver (h.link_other s) hq

/-- What one move preserves. -/
theorem step (h : Joined C ids w) (a : Move)
    (hid : ∀ s, (w.ledger s).peer.codec.drawId.1 ∉ ids s)
    (hC : ∀ s n, a = .cancel s n → n.ticket < (ids s).length → C s n.ticket) :
    Joined C (fun s => ids s ++ w.peers.sentIds s a) (w.step a) := by
  cases a with
  | request s method params => exact h.request s method params (hid s)
  | cancel s n => simpa [Pair.sentIds] using h.cancel s n (hC s n rfl)
  | call s key m => simpa [Pair.sentIds] using h.call s key m
  | encode s m => simpa [Pair.sentIds] using h.encode s m
  | deliver s => simpa [Pair.sentIds] using h.deliver s

end Joined

/-- What a run preserves. -/
theorem joined_run {p : Pair} (hp : ∀ s, (p s).Fresh) (hl : ∀ s, (p s).listening = true)
    (as : List Move) (hn : ∀ s, p.drawn s as < 2 ^ 63) :
    ((Books.start p).run as).peers = p.run as ∧ ∃ ids,
      (∀ s, (p s).codec.Numbered (p.run as s).codec (p.drawn s as) (ids s)) ∧
        Joined (p.Cancelled as) ids ((Books.start p).run as) := by
  induction as using List.reverseRecOn with
  | nil => exact ⟨rfl, fun _ => [], fun s => .start _, .start hp hl⟩
  | append_singleton as a ih =>
    have hdrawn : ∀ s, p.drawn s as < 2 ^ 63 := by
      intro s
      have := hn s
      rw [Pair.drawn_concat] at this
      omega
    obtain ⟨hpeers, ids, hnum, h⟩ := ih hdrawn
    have hq : ∀ s, (((Books.start p).run as).ledger s).queue.map (·.2) =
        (((Books.start p).run as).ledger s).peer.outgoing := fun s => (h.link_other s).sound.queue
    have hcodec : ∀ s, (((Books.start p).run as).ledger s).peer = p.run as s := fun s =>
      congrFun hpeers s
    refine ⟨?_, fun s => ids s ++ (p.run as).sentIds s a, fun s => ?_, ?_⟩
    · rw [Books.run_concat, Pair.run_concat, Books.peers_step hq, hpeers]
    · rw [Pair.run_concat, Pair.drawn_concat]
      exact Pair.numbered_step (hcodec s ▸ (h.link s).coherent) (hnum s) a
    · rw [Books.run_concat, ← hpeers]
      refine (h.mono fun s t ht => ht.concat a).step a (fun s => ?_) fun s n ha ht => ?_
      · rw [hcodec]
        exact (hnum s).fresh (hdrawn s)
      · have hlen : (ids s).length = (p.run as s).tickets.length :=
          hcodec s ▸ (h.link s).coherent.length
        exact ⟨as, n, [], by rw [ha], rfl, hlen ▸ ht⟩

end RpcPeer
