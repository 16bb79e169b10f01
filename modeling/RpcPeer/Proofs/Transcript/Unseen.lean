import RpcPeer.Proofs.Dialect.Encoding
import RpcPeer.Proofs.Dispatcher.Refinement

/-! What goes on beside the transcript, which hears of frames only. -/
namespace RpcPeer

/-- Messages may have been queued, and the transcript has seen nothing. -/
structure Peer.Adds (p q : Peer) : Prop where
  transcript : q.transcript = p.transcript
  outgoing : p.outgoing <+: q.outgoing
  listening : q.listening = p.listening
  dialect : q.codec.dialect = p.codec.dialect

namespace Peer.Adds

variable {p q r : Peer}

theorem trans (h : p.Adds q) (h' : q.Adds r) : p.Adds r :=
  ⟨h'.transcript.trans h.transcript, h.outgoing.trans h'.outgoing, h'.listening.trans h.listening,
    h'.dialect.trans h.dialect⟩

/-- Nothing that this is about has changed. -/
theorem of_eq (ht : q.transcript = p.transcript) (ho : q.outgoing = p.outgoing)
    (hl : q.listening = p.listening) (hd : q.codec.dialect = p.codec.dialect) : p.Adds q :=
  ⟨ht, ho ▸ List.prefix_rfl, hl, hd⟩

theorem refl (p : Peer) : p.Adds p := of_eq rfl rfl rfl rfl

theorem foldl {α : Type} {f : Peer → α → Peer} (hf : ∀ (q : Peer) (a : α), q.Adds (f q a))
    (h : p.Adds q) (as : List α) : p.Adds (as.foldl f q) :=
  List.foldlRecOn as f h fun q hq a _ => hq.trans (hf q a)

theorem log (h : p.Adds q) (l : Level) (s : String) : p.Adds (q.log l s) :=
  h.trans (of_eq rfl rfl rfl rfl)

theorem writeAll (h : p.Adds q) (es : List LogEntry) : p.Adds (q.writeAll es) :=
  foldl (f := Peer.write) (fun _ _ => of_eq rfl rfl rfl rfl) h es

theorem modifyTicket (h : p.Adds q) (t : Nat) (f : Ticket → Ticket) :
    p.Adds (q.modifyTicket t f) :=
  h.trans (of_eq rfl rfl rfl rfl)

theorem post (h : p.Adds q) {m : Message} (hr : q.post m = .ok r) : p.Adds r := by
  refine h.trans ?_
  unfold Peer.post at hr
  split at hr
  next => exact Except.ok.inj hr ▸ ⟨rfl, List.prefix_append _ _, rfl, rfl⟩
  next => cases hr

theorem send (h : p.Adds q) (m : Message) : p.Adds (q.send m) := by
  unfold Peer.send
  split
  next r hr => exact h.post hr
  next => exact h.log _ _

theorem respond (h : p.Adds q) (id : MessageId) (method : String) (o : Outcome) :
    p.Adds (q.respond id method o) := h.send _

theorem dropPending (h : p.Adds q) (id : MessageId) : p.Adds (q.dropPending id) := by
  unfold Peer.dropPending
  split
  · exact h
  · exact h.trans (of_eq rfl rfl rfl rfl)

theorem request (p : Peer) (method : String) (params : Payload) :
    p.Adds (p.request method params).2 := by
  unfold Peer.request
  simp only
  split
  next q hq =>
    refine post ?_ hq
    exact of_eq rfl rfl rfl rfl
  next =>
    dsimp only
    refine modifyTicket (dropPending (log ?_ _ _) _) _ _
    exact of_eq rfl rfl rfl rfl

theorem runAction (h : p.Adds q) (a : CancelAction) : p.Adds (q.runAction a) := by
  cases a with
  | cancelRequest id =>
    unfold Peer.runAction
    simp only
    split
    · exact h
    · split
      next r hr => exact ((h.dropPending id).log _ _).post hr
      next => exact ((h.dropPending id).log _ _).log _ _
  | custom r => cases r <;> exact h.trans (of_eq rfl rfl rfl rfl)

theorem cancel (h : p.Adds q) (n : Node) : p.Adds (q.cancel n) := by
  refine modifyTicket ?_ _ _
  unfold sendCancel
  simp only
  split
  · exact h
  · split
    · exact h.modifyTicket _ _
    · exact (h.modifyTicket _ _).runAction _

theorem abandonPending (h : p.Adds q) : p.Adds q.abandonPending := by
  have hgive (r : Peer) (x : PendingRequest) : r.Adds (giveUp r x) :=
    ((refl r).dropPending x.id).modifyTicket _ _
  unfold Peer.abandonPending
  simp only
  split
  · exact foldl hgive h _
  · exact foldl hgive (h.log _ _) _

theorem closeUnheld (h : p.Adds q) : p.Adds q.closeUnheld := by
  have hdrop (r : Peer) (x : PendingRequest) : r.Adds (r.dropPending x.id) :=
    (refl r).dropPending x.id
  unfold Peer.closeUnheld
  split
  · exact h
  · exact (foldl hdrop h q.pending).trans (of_eq rfl rfl rfl rfl)

theorem removeCall (h : p.Adds q) (key : Nat) : p.Adds (q.removeCall key) :=
  h.trans (of_eq rfl rfl rfl rfl)

theorem dropCall (h : p.Adds q) (c : Call) : p.Adds (q.dropCall c) :=
  ((h.removeCall _).log _ _).closeUnheld

theorem failCall (h : p.Adds q) (c : Call) (f : Fault) : p.Adds (q.failCall c f) :=
  (((h.removeCall _).writeAll _).respond _ _ _).closeUnheld

theorem settle (h : p.Adds q) (c : Call) (v : Verdict Payload) : p.Adds (q.settle c v) := by
  cases v with
  | value v => exact ((h.removeCall _).respond _ _ _).closeUnheld
  | fault f =>
    cases f with
    | cancelled => exact h.dropCall c
    | methodNotFound | invalidParams | response | other => exact h.failCall c _
  | panic text => exact h.failCall c _

theorem startCall (p : Peer) (c : Call) : p.Adds (p.startCall c).2 := by
  rw [Peer.startCall]
  rcases p.service.callRequest c.method c.params with ⟨_ | _, _⟩ <;> exact of_eq rfl rfl rfl rfl

theorem runCall (p : Peer) (key : Nat) : p.Adds (p.runCall key) := by
  unfold Peer.runCall
  split
  next => exact refl p
  next c hc =>
    split
    next => exact (refl p).dropCall c
    next =>
      cases c.activity with
      | some a =>
        dsimp only
        split
        · exact (refl p).settle c _
        · exact of_eq rfl rfl rfl rfl
      | none =>
        dsimp only
        split
        · exact (startCall p c).settle c _
        · exact (startCall p c).trans (of_eq rfl rfl rfl rfl)

theorem pollCall (p : Peer) (key : Nat) (m : CallMove) : p.Adds (p.pollCall key m) := by
  unfold Peer.pollCall
  split
  · exact runCall p key
  · cases m with
    | run => exact runCall p key
    | settle v =>
      unfold moveCall
      simp only
      split
      · exact refl p
      · exact (refl p).settle _ v

theorem cancelServed (p : Peer) (id : MessageId) : p.Adds (p.cancelServed id) := by
  unfold Peer.cancelServed
  split <;> exact of_eq rfl rfl rfl rfl

theorem handleNotification (p : Peer) (method : String) (params : Payload) :
    p.Adds (p.handleNotification method params) := by
  obtain ⟨id, -, -, h⟩ | ⟨e, h⟩ | h := handleNotification_cases p method params
  · exact h ▸ cancelServed p id
  · exact h ▸ of_eq rfl rfl rfl rfl
  · rw [h]
    rcases p.service.callNotification method params with ⟨_ | _, _ | _ | _⟩ <;>
      exact of_eq rfl rfl rfl rfl

theorem handleRequest (p : Peer) (id : MessageId) (method : String) (params : Payload) :
    p.Adds (p.handleRequest id method params) := by
  unfold Peer.handleRequest
  split
  · exact ((refl p).log _ _).respond _ _ _
  · split
    · exact (refl p).respond _ _ _
    · exact of_eq rfl rfl rfl rfl

theorem handleResponse (p : Peer) (id : Option MessageId) (o : Outcome) :
    p.Adds (p.handleResponse id o) := by
  unfold Peer.handleResponse
  split
  · split <;> exact (refl p).log _ _
  · split
    · exact (refl p).log _ _
    · cases o with
      | result | error =>
        dsimp only
        split <;> exact of_eq rfl rfl rfl rfl

theorem consume (p : Peer) (m : Message) : p.Adds (p.consume m) := by
  cases m with
  | request id method params => exact handleRequest p id method params
  | notification method params => exact handleNotification p method params
  | response id method o => exact handleResponse p id o

theorem handleIssue (h : p.Adds q) (i : Issue) : p.Adds (q.handleIssue i) := by
  unfold Peer.handleIssue
  split
  · exact (h.log _ _).respond _ _ _
  · exact h.log _ _

/-- Whoever takes messages goes on taking them. -/
theorem turn (p : Peer) {t : Turn} (ht : ∀ b, t ≠ .act (.listen b)) : p.Adds (p.turn t) := by
  cases t with
  | act a =>
    cases a with
    | request method params => exact request p method params
    | cancel n => exact (refl p).cancel n
    | consume m => exact consume p m
    | abandon => exact (refl p).abandonPending
    | listen b => exact absurd rfl (ht b)
    | encode m =>
      have hd : (p.codec.encodeText m).2.dialect = p.codec.dialect := by
        rw [p.codec.encodeText_eq_next m]
      exact of_eq rfl rfl rfl hd
    | call key m => exact pollCall p key m
  | reject i => exact (refl p).handleIssue i
  | openGate gate =>
    have hwake (q : Peer) (c : Call) : q.Adds (q.wake (.call c.key)) := of_eq rfl rfl rfl rfl
    have hopen : p.Adds { p with opened := gate :: p.opened } := of_eq rfl rfl rfl rfl
    exact hopen.trans (foldl hwake (refl _) _)
  | cancelCalls =>
    have hcancel (q : Peer) (c : Call) : q.Adds (q.cancelCall c.key) := of_eq rfl rfl rfl rfl
    exact foldl hcancel (refl p) _
  | release => exact closeUnheld (of_eq rfl rfl rfl rfl)

end Peer.Adds
end RpcPeer
