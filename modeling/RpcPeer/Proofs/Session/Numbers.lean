import RpcPeer.Proofs.Dialect.Encoding
import RpcPeer.Proofs.Session.Outlet

/-! The numbers of the frames on a connection of the debug dialect. -/
namespace RpcPeer
open Host

namespace Codec

/-- The numbers of the frames that were written, and the ids of the requests in the queue. -/
def inUse (ks : List Int64) (ms : List Message) : List MessageId :=
  ks.map .number ++ ms.filterMap Message.requestId?

/-- The numbers in use were drawn on the way from `c` to `d`, and none was drawn twice. -/
structure Unrepeated (c d : Codec) (n : Nat) (ks : List Int64) (ms : List Message) : Prop where
  numbered : c.Numbered d n (inUse ks ms)
  nodup : (inUse ks ms).Nodup

variable {c d : Codec} {n : Nat} {ks : List Int64} {m : Message} {ms : List Message}

theorem drawId_of_debug (hd : d.dialect = .debug) : d.drawId.1 = .number d.next := by
  simp only [drawId, hd]

theorem Numbered.eq_number {ids : List MessageId} (h : c.Numbered d n ids)
    (hc : c.dialect = .debug) {id : MessageId} (hid : id ∈ ids) {k : Int64}
    (hk : id.number? = some k) : id = .number k := by
  obtain ⟨j, -, rfl⟩ := h.drawn id hid
  have hj : c.idAfter j = .number (c.next + Int64.ofNat j) := drawId_of_debug hc
  rw [hj] at hk ⊢
  exact congrArg _ (Option.some.inj hk)

/-- An event or a response that is encoded takes the number that a request would have taken. -/
theorem encode_of_debug (hd : d.dialect = .debug) (hm : m.requestId? = none) {v : Json}
    (hv : (d.encode m).1 = .ok v) : (d.encode m).2 = d.drawId.2 := by
  obtain ⟨dialect, k, next⟩ := d
  cases hd
  cases m with
  | request => cases hm
  | notification => rfl
  | response id method o =>
    simp only [encode, Debug.encode] at hv ⊢
    cases hs : id.elim (.ok 0) Debug.sequence with
    | error e =>
      simp only [hs] at hv
      cases hv
    | ok s => rfl

namespace Unrepeated

theorem drop (h : Unrepeated c d n ks ms) {ms' : List Message} (hs : ms'.Sublist ms) :
    Unrepeated c d n ks ms' := by
  have hsub : (inUse ks ms').Sublist (inUse ks ms) := (hs.filterMap _).append_left _
  exact ⟨h.numbered.subset hsub.subset, h.nodup.sublist hsub⟩

theorem encode (h : Unrepeated c d n ks ms) (m : Message) :
    Unrepeated c (d.encode m).2 (n + takenUntil d (d.encode m).2) ks ms :=
  ⟨h.numbered.encode m, h.nodup⟩

/-- A message that has been encoded shows a number that no other frame and no request has. -/
theorem write (h : Unrepeated c d n ks (m :: ms)) (hc : c.dialect = .debug) (hn : n < 2 ^ 63)
    {v : Json} (hv : (d.encode m).1 = .ok v) :
    ∃ k : Int64, v.member? "seq" = some (.int k.toInt) ∧
      Unrepeated c (d.encode m).2 (n + takenUntil d (d.encode m).2) (ks ++ [k]) ms := by
  have hd : d.dialect = .debug := h.numbered.dialect.trans hc
  have hv' : (Debug.encode d.next m).1 = .ok v := by
    simpa only [Codec.encode, hd] using hv
  obtain ⟨k, hk, hnum⟩ := Debug.member?_seq hv'
  refine ⟨k, hk, ?_⟩
  cases hr : m.requestId? with
  | some id =>
    have hid : id = .number k := by
      cases m with
      | request i _ _ =>
        cases hr
        refine h.numbered.eq_number hc ?_ hnum
        simp [inUse, Message.requestId?]
      | notification | response => cases hr
    have huse : inUse (ks ++ [k]) ms = inUse ks (m :: ms) := by
      simp [inUse, hr, hid]
    have h' := h.encode m
    exact ⟨huse ▸ h'.numbered, huse ▸ h'.nodup⟩
  | none =>
    have hold : inUse ks (m :: ms) = inUse ks ms := by
      simp [inUse, hr]
    obtain rfl : k = d.next := by
      cases m with
      | request => cases hr
      | notification | response => exact hnum
    have hnew : (inUse (ks ++ [d.next]) ms).Perm (inUse ks ms ++ [.number d.next]) := by
      rw [inUse, List.map_append, List.append_assoc]
      exact (List.perm_append_comm.append_left _).trans (by simp [inUse])
    have hdraw := h.numbered.drawId
    have hfresh := h.numbered.fresh hn
    rw [hold, drawId_of_debug hd] at hfresh
    rw [hold, drawId_of_debug hd] at hdraw
    rw [encode_of_debug hd hr hv]
    refine ⟨hdraw.subset hnew.subset, hnew.nodup_iff.mpr ?_⟩
    exact (hold ▸ h.nodup).append (List.nodup_singleton _) (by simpa using hfresh)

end Unrepeated
end Codec

/-- What has been written are frames with these numbers. After a failure half a frame may follow. -/
def SessionWriter.Wrote (w : SessionWriter) (ks : List Int64) : Prop :=
  ∃ (vs : List Json) (rest : List String),
    w.sink.chunks = (vs.flatMap fun v => [Frame.header v.text, v.text]) ++ rest ∧
      List.Forall₂ (fun v k => v.member? "seq" = some (.int (Int64.toInt k))) vs ks ∧
      rest.length ≤ 1 ∧ (w.result = none → rest = [])

namespace Outlet

variable {l : Outlet} {c : Codec} {n : Nat} {ids : List MessageId} {ks : List Int64}

/-- The frame is written, or the task ends and drops the queue. -/
theorem emit_cases (l : Outlet) (m : Message) {v : Json} {k : Int64}
    (hk : v.member? "seq" = some (.int k.toInt)) (hw : l.writer.result = none)
    (hwrote : l.writer.Wrote ks) :
    ∃ q w, l.emit m v.text = ⟨q, w, l.held⟩ ∧
      (w.Wrote (ks ++ [k]) ∧ q.tables = l.peer.tables ∨
        w.Wrote ks ∧ q.tables = { l.peer.tables with outgoing := [], listening := false }) := by
  obtain ⟨vs, rest, hchunks, hall, -, hrest⟩ := hwrote
  obtain rfl := hrest hw
  obtain ⟨s, r, he, hs⟩ := l.writer.sink.chunks_writeFrame v.text
  unfold emit
  rw [he]
  cases r with
  | ok u =>
    refine ⟨_, _, rfl, .inl ⟨⟨vs ++ [v], [], ?_, ?_, by simp, fun _ => rfl⟩, ?_⟩⟩
    · rw [hs, hchunks]
      simp
    · exact List.rel_append hall (.cons hk .nil)
    · exact Peer.tables_traceSent _ _
  | error e =>
    obtain ⟨half, hhalf, hlen⟩ := hs
    refine ⟨_, _, rfl, .inr ⟨⟨vs, half, ?_, hall, hlen, nofun⟩, ?_⟩⟩
    · rw [hhalf, hchunks, List.append_nil]
    · exact congrArg (fun t => { t with outgoing := [], listening := false })
        (Peer.tables_traceSent _ _)

/-- What an outlet has written in a run that began at the codec `c`: `n` numbers were taken, and
`ks` are the numbers of the frames. -/
structure Spread (c : Codec) (l : Outlet) (n : Nat) (ks : List Int64) : Prop where
  inUse : c.Unrepeated l.peer.codec n ks l.queued
  wrote : l.writer.Wrote ks

theorem Spread.of_tables {t : Tables} (ht : l.peer.tables = t)
    (hinUse : c.Unrepeated t.codec n ks (l.held.toList ++ t.outgoing))
    (hwrote : l.writer.Wrote ks) : Spread c l n ks := by
  subst ht
  exact ⟨hinUse, hwrote⟩

/-- Trying to write the first of what is queued. -/
theorem Spread.tryMessage {m : Message} (hc : c.dialect = .debug) (hn : n < 2 ^ 63)
    (hw : l.writer.result = none) (hheld : l.held = none)
    (hinUse : c.Unrepeated l.peer.codec n ks (m :: l.peer.outgoing)) (hwrote : l.writer.Wrote ks)
    (what : String) {excuse : EncodeError → Option Message}
    (hexcuse : ∀ e x, excuse e = some x → x.requestId? = none) :
    ∃ ks', Spread c (l.tryMessage what m excuse)
      (n + l.peer.codec.takenUntil (l.tryMessage what m excuse).peer.codec) ks' := by
  cases h : l.peer.codec.encodeText m with
  | mk r d =>
  have hd : (l.peer.codec.encode m).2 = d := congrArg Prod.snd h
  have hinUse' := hinUse.encode m
  rw [hd] at hinUse'
  have hrest := hinUse'.drop (List.sublist_cons_self m l.peer.outgoing)
  cases r with
  | error e =>
    have hqueue : Codec.inUse ks ((excuse e).toList ++ l.peer.outgoing) =
        Codec.inUse ks l.peer.outgoing := by
      cases hx : excuse e with
      | none => rfl
      | some x => simp [Codec.inUse, hexcuse e x hx]
    rw [tryMessage_of_error what excuse h]
    exact ⟨ks, .of_tables rfl ⟨hqueue ▸ hrest.numbered, hqueue ▸ hrest.nodup⟩ hwrote⟩
  | ok text =>
    obtain ⟨v, hv, rfl⟩ := Codec.encodeText_eq_ok (congrArg Prod.fst h)
    obtain ⟨k, hk, hwrite⟩ := hinUse.write hc hn hv
    rw [hd] at hwrite
    obtain ⟨q, w, hemit, hcases⟩ :=
      emit_cases { l with peer := { l.peer with codec := d } } m hk hw hwrote
    rw [tryMessage_of_ok what excuse h, hemit, hheld]
    have hq : q.codec = d := by
      rcases hcases with ⟨-, ht⟩ | ⟨-, ht⟩ <;> exact congrArg Tables.codec ht
    rw [hq]
    rcases hcases with ⟨hwrote', ht⟩ | ⟨hwrote', ht⟩
    · exact ⟨ks ++ [k], .of_tables ht hwrite hwrote'⟩
    · exact ⟨ks, .of_tables ht (hrest.drop (List.nil_sublist _)) hwrote'⟩

theorem Spread.attempt (h : Spread c l n ks) (hc : c.dialect = .debug) (hn : n < 2 ^ 63) :
    ∃ ks', Spread c l.attempt (n + l.peer.codec.takenUntil l.attempt.peer.codec) ks' := by
  have hstay : ∃ ks', Spread c l (n + l.peer.codec.takenUntil l.peer.codec) ks' :=
    ⟨ks, by simpa [Codec.takenUntil] using h⟩
  cases hw : l.writer.result with
  | some r =>
    have he : l.attempt = l := by simp [Outlet.attempt, hw]
    exact he.symm ▸ hstay
  | none =>
    have hinUse := h.inUse
    cases hheld : l.held with
    | some m =>
      rw [queued, hheld] at hinUse
      rw [attempt_held hw hheld]
      exact Spread.tryMessage (l := { l with held := none }) hc hn hw rfl hinUse h.wrote _
        (fun _ _ hx => absurd hx (by simp))
    | none =>
      rw [queued, hheld] at hinUse
      cases ho : l.peer.outgoing with
      | nil =>
        have he : l.attempt = l := by simp [Outlet.attempt, hw, hheld, ho]
        exact he.symm ▸ hstay
      | cons m ms =>
        rw [ho] at hinUse
        rw [attempt_cons hw hheld ho]
        refine Spread.tryMessage (l := { l with peer := { l.peer with outgoing := ms } }) hc hn hw
          hheld hinUse h.wrote _ ?_
        intro e x hx
        cases m with
        | request | notification => cases hx
        | response => cases hx; rfl

/-- Sending an event or a response. -/
theorem Spread.send (h : Spread c l n ks) {m : Message} (hm : m.requestId? = none) :
    Spread c { l with peer := l.peer.send m }
      (n + l.peer.codec.takenUntil (l.peer.send m).codec) ks := by
  have ht := l.peer.tables_send m
  have hcodec : (l.peer.send m).codec = l.peer.codec := congrArg Tables.codec ht
  have htaken : l.peer.codec.takenUntil l.peer.codec = 0 := if_pos rfl
  have huse : Codec.inUse ks (l.held.toList ++
      (l.peer.outgoing ++ if l.peer.listening then [m] else [])) = Codec.inUse ks l.queued := by
    cases l.peer.listening <;> simp [Codec.inUse, queued, hm]
  rw [hcodec, htaken]
  exact .of_tables ht ⟨huse ▸ h.inUse.numbered, huse ▸ h.inUse.nodup⟩ h.wrote

theorem Spread.act (h : Spread c l n ks) (hc : l.peer.tables.Coherent ids) (hn : n < 2 ^ 63)
    (a : Act) :
    Spread c { l with peer := l.peer.act a }
      (n + l.peer.codec.takenUntil (l.peer.act a).codec) ks := by
  obtain ⟨ms, ho, -, hms, -⟩ := Peer.messages_act hc a
  have hnumbered := Peer.numbered_act hc a h.inUse.numbered
  have hsub : (Codec.inUse ks (l.held.toList ++ (l.peer.act a).outgoing)).Sublist
      (Codec.inUse ks l.queued ++ l.peer.sentIds a) := by
    rw [ho, Codec.inUse, Codec.inUse, queued, ← List.append_assoc, List.filterMap_append, hms,
      List.append_assoc]
    refine (List.Sublist.refl _).append ((List.Sublist.refl _).append ?_)
    split
    · exact List.Sublist.refl _
    · exact List.nil_sublist _
  have hnodup : (Codec.inUse ks l.queued ++ l.peer.sentIds a).Nodup := by
    unfold Peer.sentIds
    split
    · exact h.inUse.nodup.append (List.nodup_singleton _)
        (by simpa using h.inUse.numbered.fresh hn)
    · simpa using h.inUse.nodup
  exact ⟨⟨hnumbered.subset hsub.subset, hnodup.sublist hsub⟩, h.wrote⟩

theorem Spread.move (h : Spread c l n ks) (hc : l.peer.tables.Coherent ids)
    (hd : c.dialect = .debug) (hn : n < 2 ^ 63) (m : OutletMove) :
    ∃ ks', Spread c (l.move m) (n + l.peer.codec.takenUntil (l.move m).peer.codec) ks' := by
  cases m with
  | act a => exact ⟨_, h.act hc hn a⟩
  | event method params => exact ⟨_, h.send (m := .notification method params) rfl⟩
  | answer id method o => exact ⟨_, h.send (m := .response id method o) rfl⟩
  | attempt => exact h.attempt hd hn

theorem Spread.run (h : Spread c l n ks) (ht : l.peer.Tracked c n ids) (hd : c.dialect = .debug)
    (ms : List OutletMove) (hn : n + drawn l ms < 2 ^ 63) :
    ∃ ks', Spread c (run l ms) (n + drawn l ms) ks' := by
  induction ms generalizing l n ids ks with
  | nil => exact ⟨ks, h⟩
  | cons m ms ih =>
    rw [drawn_cons] at hn ⊢
    obtain ⟨ks', h'⟩ := h.move ht.coherent hd (by omega) m
    have hrest := ih h' (tracked_move ht (by omega) m) (by omega)
    rwa [Nat.add_assoc] at hrest

/-- In every run of requests, events, responses and attempts to write, in any order, of which any
may fail, the frames that are written have numbers that differ from each other. The writing task
itself is a run of attempts. -/
theorem seqs_nodup (p : Peer) (hp : p.Fresh) (hd : p.codec.dialect = .debug) (s : Sink)
    (hs : s.chunks = []) (ms : List OutletMove)
    (hn : drawn (⟨p, ⟨s, none⟩, none⟩ : Outlet) ms < 2 ^ 63) :
    (∃ ks, (run (⟨p, ⟨s, none⟩, none⟩ : Outlet) ms).writer.Wrote ks ∧ ks.Nodup) ∧
      ∀ (q : Peer) (w : SessionWriter), q.closed = false →
        ∃ n, run (⟨q, w, none⟩ : Outlet) (List.replicate n .attempt) =
          ⟨(w.run q).2, (w.run q).1, none⟩ := by
  refine ⟨?_, fun q w hq => exists_attempts_run q w hq⟩
  have hstart : Spread p.codec ⟨p, ⟨s, none⟩, none⟩ 0 [] := by
    refine ⟨?_, [], [], hs, .nil, by simp, fun _ => rfl⟩
    have hnone : Codec.inUse [] (queued ⟨p, ⟨s, none⟩, none⟩) = [] := by
      simp [Codec.inUse, queued, hp.outgoing]
    exact ⟨hnone ▸ hp.tracked.numbered, hnone ▸ List.nodup_nil⟩
  obtain ⟨ks, h⟩ := hstart.run hp.tracked hd ms (by omega)
  have hnumbers : (ks.map MessageId.number).Nodup :=
    h.inUse.nodup.sublist (List.sublist_append_left _ _)
  exact ⟨ks, h.wrote, hnumbers.of_map _⟩

/-- A request, an event and a response that is replaced, which takes two numbers. -/
theorem seqs_nodup_replaced_response :
    let p : Peer := { codec := ⟨.debug, ⟨[]⟩, 1⟩, service := .empty "" }
    let broken : Outcome := .result (.typed "T" (.sealed "closed"))
    let ms : List OutletMove := [.act (.request "run" .absent), .event "ready" .absent,
      .answer (some (.number 7)) (some "run") broken] ++ List.replicate 4 .attempt
    drawn (⟨p, {}, none⟩ : Outlet) ms = 4 ∧
      ∃ ks, (run (⟨p, {}, none⟩ : Outlet) ms).writer.Wrote ks ∧ ks.Nodup ∧ ks.length = 3 := by
  intro p broken ms
  have hdrawn : drawn (⟨p, {}, none⟩ : Outlet) ms = 4 := by decide
  obtain ⟨⟨ks, hwrote, hks⟩, -⟩ := seqs_nodup p ⟨rfl, rfl, rfl, rfl, rfl, rfl⟩ rfl {} rfl ms
    (by rw [hdrawn]; decide)
  refine ⟨hdrawn, ks, hwrote, hks, ?_⟩
  obtain ⟨vs, rest, hchunks, hall, hrest, -⟩ := hwrote
  have hsix : (run (⟨p, {}, none⟩ : Outlet) ms).writer.sink.chunks.length = 6 := by decide
  rw [hchunks, List.length_append, List.length_flatMap] at hsix
  simp at hsix
  rw [← hall.length_eq]
  omega

end Outlet
end RpcPeer
