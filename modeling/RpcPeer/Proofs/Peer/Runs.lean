import RpcPeer.Proofs.Peer.Replies

/-! Runs of the systems that a peer is part of. -/
namespace RpcPeer

/-- Moves, some of which are acts of a peer. -/
class Moves (μ : Type) where
  act : Act → μ
  act? : μ → Option Act
  act?_eq_some {m : μ} {a : Act} : act? m = some a ↔ m = act a

namespace Moves

variable {μ : Type} [Moves μ]

@[simp] theorem act?_act (a : Act) : act? (act a : μ) = some a := act?_eq_some.mpr rfl

/-- Does a move end the request of ticket `u`, whose id is `id`, if it is still open? -/
def ends (u : Nat) (id : MessageId) (m : μ) : Bool := (act? m).any (·.ends u id)

/-- What a move answers, if a response comes in. -/
def answer? (m : μ) : Option Outcome := (act? m).bind Act.answer?

/-- Does a move cancel this node or one from which it is derived? -/
def marks (n : Node) (m : μ) : Bool := (act? m).any (·.marks n)

@[simp] theorem ends_act (u : Nat) (id : MessageId) (a : Act) :
    ends u id (act a : μ) = a.ends u id := by
  simp [ends]

theorem ends_iff {u : Nat} {id : MessageId} {m : μ} :
    ends u id m = true ↔ ∃ a, m = act a ∧ a.ends u id = true := by
  simp only [ends, Option.any_eq_true, act?_eq_some]

theorem answer?_eq_some_iff {m : μ} {o : Outcome} :
    answer? m = some o ↔ ∃ id method, m = act (.consume (.response id method o)) := by
  simp only [answer?, Option.bind_eq_some_iff, act?_eq_some]
  constructor
  · rintro ⟨a, rfl, ha⟩
    cases a with
    | consume m =>
      cases m with
      | response id method o' =>
        obtain rfl := Option.some.inj ha
        exact ⟨id, method, rfl⟩
      | request | notification => cases ha
    | request | cancel | abandon | listen | encode | call => cases ha
  · rintro ⟨id, method, rfl⟩
    exact ⟨_, rfl, rfl⟩

theorem marks_iff {n : Node} {m : μ} : marks n m = true ↔
    ∃ c : Node, m = act (.cancel c) ∧ c.ticket = n.ticket ∧ c.depth ≤ n.depth := by
  simp only [marks, Option.any_eq_true, act?_eq_some]
  constructor
  · rintro ⟨a, rfl, ha⟩
    cases a with
    | cancel c =>
      rw [Act.marks, Bool.and_eq_true, beq_iff_eq, decide_eq_true_eq] at ha
      exact ⟨c, rfl, ha⟩
    | request | consume | abandon | listen | encode | call => cases ha
  · rintro ⟨c, rfl, ht, hd⟩
    exact ⟨_, rfl, by simp [Act.marks, ht, hd]⟩

end Moves

namespace Peer

/-- Only the codec, the queue and who takes from it are changed, and at most one message has been
encoded. -/
def Keeps (p q : Peer) : Prop :=
  ∃ d ms b, q.tables = { p.tables with codec := d, outgoing := ms, listening := b } ∧
    (d = p.codec ∨ ∃ m, d = (p.codec.encode m).2)

/-- The requests of a peer are in order: those with the ids `ids` have been made, and `n` numbers
were taken since the codec was `c`. -/
structure Tracked (c : Codec) (p : Peer) (n : Nat) (ids : List MessageId) : Prop where
  numbered : c.Numbered p.codec n ids
  coherent : p.tables.Coherent ids
  settled : p.tables.Settled

variable {p q : Peer} {c : Codec} {n : Nat} {ids : List MessageId}

theorem Fresh.tracked (h : p.Fresh) : Tracked p.codec p 0 [] where
  numbered := .start _
  coherent := h.coherent
  settled := by simp [Tables.Settled, tables, h.tickets]

namespace Tracked

theorem act (h : Tracked c p n ids) (hn : n < 2 ^ 63) (a : Act) :
    Tracked c (p.act a) (n + p.codec.takenUntil (p.act a).codec) (ids ++ p.sentIds a) where
  numbered := numbered_act h.coherent a h.numbered
  coherent := coherent_act h.coherent (h.numbered.fresh hn) a
  settled := settled_act h.coherent h.settled a

theorem keeps (h : Tracked c p n ids) (hk : p.Keeps q) :
    Tracked c q (n + p.codec.takenUntil q.codec) ids := by
  obtain ⟨d, ms, b, ht, hd⟩ := hk
  obtain rfl : q.codec = d := congrArg Tables.codec ht
  refine ⟨?_, ?_, ?_⟩
  · rcases hd with hd | ⟨m, hd⟩
    · simpa [hd, Codec.takenUntil] using h.numbered
    · rw [hd]
      exact h.numbered.encode m
  · rw [ht]
    exact h.coherent.closes (.of_eq rfl rfl rfl rfl)
  · rw [ht]
    exact h.settled

end Tracked
end Peer

/-- A system that a peer is part of. What is not an act of the peer leaves its requests alone. -/
class Host (σ : Type) (μ : outParam Type) [Moves μ] where
  peer : σ → Peer
  move : σ → μ → σ
  peer_act (s : σ) (a : Act) : peer (move s (Moves.act a)) = (peer s).act a
  keeps (s : σ) {m : μ} (h : Moves.act? m = none) : (peer s).Keeps (peer (move s m))

namespace Host
open Moves

variable {σ μ : Type} [Moves μ] [Host σ μ]

def run (s : σ) (ms : List μ) : σ := ms.foldl move s

/-- How many numbers a run takes from the counter of ids. -/
def drawn (s : σ) : List μ → Nat
  | [] => 0
  | m :: ms => (peer s).codec.takenUntil (peer (move s m)).codec + drawn (move s m) ms

def sentIds (s : σ) (m : μ) : List MessageId := (act? m).elim [] (peer s).sentIds

/-- The ids of the requests that are made in a run. -/
def made (s : σ) : List μ → List MessageId
  | [] => []
  | m :: ms => sentIds s m ++ made (move s m) ms

theorem run_append (s : σ) (ms ms' : List μ) : run s (ms ++ ms') = run (run s ms) ms' :=
  List.foldl_append

theorem drawn_append (s : σ) (ms ms' : List μ) :
    drawn s (ms ++ ms') = drawn s ms + drawn (run s ms) ms' := by
  induction ms generalizing s with
  | nil => simp [drawn, run]
  | cons m ms ih => simp [drawn, run, ih, Nat.add_assoc]

theorem made_append (s : σ) (ms ms' : List μ) :
    made s (ms ++ ms') = made s ms ++ made (run s ms) ms' := by
  induction ms generalizing s with
  | nil => rfl
  | cons m ms ih => simp [made, run, ih]

theorem drawn_le_length (s : σ) (ms : List μ) : drawn s ms ≤ ms.length := by
  induction ms generalizing s with
  | nil => simp [drawn]
  | cons m ms ih =>
    have h := ih (move s m)
    have ht : (peer s).codec.takenUntil (peer (move s m)).codec ≤ 1 := by
      unfold Codec.takenUntil
      split <;> omega
    simp only [drawn, List.length_cons]
    omega

variable {s : σ} {c : Codec} {n : Nat} {ids : List MessageId}

theorem tracked_move (h : Peer.Tracked c (peer s) n ids) (hn : n < 2 ^ 63) (m : μ) :
    Peer.Tracked c (peer (move s m)) (n + (peer s).codec.takenUntil (peer (move s m)).codec)
      (ids ++ sentIds s m) := by
  cases ha : act? m with
  | some a =>
    obtain rfl := act?_eq_some.mp ha
    rw [sentIds, ha, peer_act]
    exact h.act hn a
  | none =>
    rw [sentIds, ha]
    exact (List.append_nil ids).symm ▸ h.keeps (keeps s ha)

theorem tracked_run (h : Peer.Tracked c (peer s) n ids) (ms : List μ)
    (hn : n + drawn s ms < 2 ^ 63) :
    Peer.Tracked c (peer (run s ms)) (n + drawn s ms) (ids ++ made s ms) := by
  induction ms generalizing s n ids with
  | nil => simpa [drawn, made, run] using h
  | cons m ms ih =>
    rw [drawn] at hn ⊢
    have h' := ih (tracked_move h (by omega) m) (by omega)
    rwa [List.append_assoc, Nat.add_assoc] at h'

theorem tracked_of_fresh (hs : (peer s).Fresh) (ms : List μ) (hn : drawn s ms < 2 ^ 63) :
    Peer.Tracked (peer s).codec (peer (run s ms)) (drawn s ms) (made s ms) := by
  have h := tracked_run hs.tracked ms (by omega)
  rwa [List.nil_append, Nat.zero_add] at h

/-- A move closes the open requests that it ends. -/
theorem openId?_move (h : (peer s).tables.Coherent ids) (m : μ) {u : Nat}
    (hu : u < (peer s).tickets.length) :
    (peer (move s m)).tables.openId? u =
      ((peer s).tables.openId? u).filter (!ends u · m) := by
  unfold ends
  cases ha : act? m with
  | some a =>
    obtain rfl := act?_eq_some.mp ha
    rw [peer_act]
    exact Peer.openId?_act h a hu
  | none =>
    obtain ⟨d, ms, b, ht, -⟩ := keeps s ha
    rw [ht]
    change (peer s).tables.openId? u = _
    cases (peer s).tables.openId? u <;> rfl

/-- The reply of an open request arrives with the response that ends it. -/
theorem arrived?_move (h : (peer s).tables.Coherent ids) (m : μ) (u : Nat) :
    (peer (move s m)).tables.arrived? u =
      (((((peer s).tables.openId? u).filter (ends u · m)).bind fun _ => answer? m).map
        Outcome.reply).or ((peer s).tables.arrived? u) := by
  unfold ends answer?
  cases ha : act? m with
  | some a =>
    obtain rfl := act?_eq_some.mp ha
    rw [peer_act]
    exact Peer.arrived?_act h a u
  | none =>
    obtain ⟨d, ms, b, ht, -⟩ := keeps s ha
    rw [ht, Option.bind_none, Option.bind_fun_none]
    rfl

theorem isCancelled_move (h : (peer s).tables.Coherent ids) (m : μ) {x : Node}
    (hx : x.ticket < (peer s).tickets.length) :
    (peer (move s m)).isCancelled x = ((peer s).isCancelled x || marks x m) := by
  unfold marks
  cases ha : act? m with
  | some a =>
    obtain rfl := act?_eq_some.mp ha
    rw [peer_act]
    exact Peer.isCancelled_act h a hx
  | none =>
    obtain ⟨d, ms, b, ht, -⟩ := keeps s ha
    rw [Peer.isCancelled_eq, ht, Peer.isCancelled_eq]
    exact (Bool.or_false _).symm

theorem length_move (h : Peer.Tracked c (peer s) n ids) (hn : n < 2 ^ 63) (m : μ) {u : Nat}
    (hu : u < (peer s).tickets.length) : u < (peer (move s m)).tickets.length := by
  have hl : (ids ++ sentIds s m).length = (peer (move s m)).tickets.length :=
    (tracked_move h hn m).coherent.length
  have hl' : ids.length = (peer s).tickets.length := h.coherent.length
  rw [List.length_append] at hl
  omega

/-- A run closes the open requests that one of its moves ends. -/
theorem openId?_run (h : Peer.Tracked c (peer s) n ids) (ms : List μ)
    (hn : n + drawn s ms < 2 ^ 63) {u : Nat} (hu : u < (peer s).tickets.length) :
    (peer (run s ms)).tables.openId? u =
      ((peer s).tables.openId? u).filter fun id => !ms.any (ends u id) := by
  induction ms generalizing s n ids with
  | nil =>
    change (peer s).tables.openId? u = _
    cases (peer s).tables.openId? u <;> rfl
  | cons m ms ih =>
    rw [drawn] at hn
    have hrest := ih (tracked_move h (by omega) m) (by omega) (length_move h (by omega) m hu)
    rw [openId?_move h.coherent m hu, Option.filter_filter] at hrest
    refine hrest.trans (congrArg (Option.filter · _) (funext fun id => ?_))
    rw [List.any_cons, Bool.not_or, Bool.and_comm]

/-- Of the moves that end an open request the first decides whether a reply arrives. -/
theorem arrived?_run (h : Peer.Tracked c (peer s) n ids) (ms : List μ)
    (hn : n + drawn s ms < 2 ^ 63) {u : Nat} (hu : u < (peer s).tickets.length) :
    (peer (run s ms)).tables.arrived? u =
      ((((peer s).tables.openId? u).bind fun id => (ms.find? (ends u id)).bind answer?).map
        Outcome.reply).or ((peer s).tables.arrived? u) := by
  induction ms generalizing s n ids with
  | nil =>
    change _ = ((((peer s).tables.openId? u).bind fun _ => none).map Outcome.reply).or _
    rw [Option.bind_fun_none]
    rfl
  | cons m ms ih =>
    rw [drawn] at hn
    have hrest := ih (tracked_move h (by omega) m) (by omega) (length_move h (by omega) m hu)
    refine hrest.trans ?_
    rw [openId?_move h.coherent m hu, arrived?_move h.coherent m u]
    cases (peer s).tables.openId? u with
    | none => rfl
    | some id =>
      cases ha : ends u id m with
      | true => simp [ha, Option.filter]
      | false => simp [ha, Option.filter]

theorem isCancelled_run (h : Peer.Tracked c (peer s) n ids) (ms : List μ)
    (hn : n + drawn s ms < 2 ^ 63) {x : Node} (hx : x.ticket < (peer s).tickets.length) :
    (peer (run s ms)).isCancelled x = ((peer s).isCancelled x || ms.any (marks x)) := by
  induction ms generalizing s n ids with
  | nil => exact (Bool.or_false _).symm
  | cons m ms ih =>
    rw [drawn] at hn
    have hrest := ih (tracked_move h (by omega) m) (by omega) (length_move h (by omega) m hx)
    rw [isCancelled_move h.coherent m hx, Bool.or_assoc] at hrest
    exact hrest

end Host

instance : Moves Act where
  act a := a
  act? := some
  act?_eq_some := Option.some_inj

instance : Host Peer Act where
  peer p := p
  move := Peer.act
  peer_act _ _ := rfl
  keeps _ _ h := absurd h (Option.some_ne_none _)

theorem Peer.drawn_cons (p : Peer) (a : Act) (as : List Act) :
    Host.drawn p (a :: as) =
      p.codec.takenUntil (p.act a).codec + Host.drawn (p.act a) as := rfl

end RpcPeer
