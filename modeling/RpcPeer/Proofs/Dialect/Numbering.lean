import Mathlib
import RpcPeer.Dialect.Codec

/-! Ids that a codec draws, and the counter behind them. -/
namespace RpcPeer.Codec

/-- The id that is drawn after `n` numbers have been taken. -/
def idAfter (c : Codec) (n : Nat) : MessageId := { c with next := c.next + Int64.ofNat n }.drawId.1

theorem drawId_injective {d : Dialect} {k : Catalog} {i j : Int64}
    (h : (drawId ⟨d, k, i⟩).1 = (drawId ⟨d, k, j⟩).1) : i = j := by
  cases d with
  | base =>
    have hr : i.toInt.repr = j.toInt.repr := MessageId.text.inj h
    exact Int64.toInt.inj (Int.repr_injective hr)
  | debug => exact MessageId.number.inj h

theorem idAfter_injective (c : Codec) {m n : Nat} (hm : m < 2 ^ 63) (hn : n < 2 ^ 63)
    (h : c.idAfter m = c.idAfter n) : m = n := by
  have hi : Int64.ofNat m = Int64.ofNat n := by
    have := drawId_injective h
    rwa [Int64.add_right_inj] at this
  have hb : m % 2 ^ 64 = n % 2 ^ 64 := by
    have := congrArg (fun i : Int64 => i.toBitVec.toNat) hi
    simpa using this
  omega

/-- How many numbers have been taken when a codec becomes another one in one step. -/
def takenUntil (c d : Codec) : Nat := if d.next = c.next then 0 else 1

/-- The codec `d` is what `c` has become after taking `n` numbers, and each of `ids` was drawn on
the way. -/
structure Numbered (c d : Codec) (n : Nat) (ids : List MessageId) : Prop where
  dialect : d.dialect = c.dialect
  next : d.next = c.next + Int64.ofNat n
  drawn : ∀ id ∈ ids, ∃ k < n, id = c.idAfter k

theorem Numbered.start (c : Codec) : Numbered c c 0 [] where
  dialect := rfl
  next := (Int64.add_zero _).symm
  drawn := by simp

namespace Numbered

variable {c d : Codec} {n : Nat} {ids : List MessageId}

theorem drawId_eq (h : Numbered c d n ids) : d.drawId.1 = c.idAfter n := by
  simp only [drawId, idAfter, h.dialect, h.next]

theorem subset (h : Numbered c d n ids) {ids' : List MessageId} (hs : ids' ⊆ ids) :
    Numbered c d n ids' :=
  ⟨h.dialect, h.next, fun id hid => h.drawn id (hs hid)⟩

theorem fresh (h : Numbered c d n ids) (hn : n < 2 ^ 63) : d.drawId.1 ∉ ids := by
  intro hd
  obtain ⟨k, hk, he⟩ := h.drawn _ hd
  rw [h.drawId_eq] at he
  exact Nat.lt_irrefl k (idAfter_injective c hn (hk.trans hn) he ▸ hk)

theorem of_next {d' : Codec} (h : Numbered c d n ids) (hd : d'.dialect = d.dialect)
    (hn : d'.next = d.next ∨ d'.next = d.next + 1) :
    Numbered c d' (n + takenUntil d d') ids := by
  rcases hn with hn | hn
  · have ht : takenUntil d d' = 0 := if_pos hn
    rw [ht]
    exact ⟨hd.trans h.dialect, hn.trans h.next, h.drawn⟩
  · have hne : d'.next ≠ d.next := by
      intro he
      have : (1 : Int64) = 0 := by
        rwa [hn, Int64.add_eq_left] at he
      exact absurd this (by decide)
    have ht : takenUntil d d' = 1 := if_neg hne
    rw [ht]
    refine ⟨hd.trans h.dialect, ?_, fun id hid => ?_⟩
    · rw [hn, h.next, Int64.ofNat_add, Int64.add_assoc]
      rfl
    · obtain ⟨k, hk, he⟩ := h.drawn id hid
      exact ⟨k, by omega, he⟩

theorem drawId (h : Numbered c d n ids) :
    Numbered c d.drawId.2 (n + takenUntil d d.drawId.2) (ids ++ [d.drawId.1]) := by
  have h' : Numbered c d.drawId.2 (n + takenUntil d d.drawId.2) ids := h.of_next rfl (.inr rfl)
  refine ⟨h'.dialect, h'.next, fun id hid => ?_⟩
  rcases List.mem_append.mp hid with hid | hid
  · exact h'.drawn id hid
  · have hne : takenUntil d d.drawId.2 = 1 := by
      refine if_neg fun he => ?_
      have : (1 : Int64) = 0 := by
        rwa [Codec.drawId, Int64.add_eq_left] at he
      exact absurd this (by decide)
    exact ⟨n, by omega, List.mem_singleton.mp hid ▸ h.drawId_eq⟩

/-- Encoding a message may take a number, but draws no id. -/
theorem encode (h : Numbered c d n ids) (m : Message) :
    Numbered c (d.encode m).2 (n + takenUntil d (d.encode m).2) ids := by
  refine h.of_next ?_ ?_
  · unfold Codec.encode
    split <;> rfl
  · unfold Codec.encode
    cases d.dialect with
    | base => exact .inl rfl
    | debug =>
      cases m with
      | request => exact .inl rfl
      | notification => exact .inr rfl
      | response id _ _ =>
        simp only [Debug.encode]
        cases id.elim (.ok 0) Debug.sequence with
        | error => exact .inl rfl
        | ok => exact .inr rfl

end Numbered
end RpcPeer.Codec
