import RpcPeer.Dialect.Codec
import RpcPeer.Proofs.Json.Object
import RpcPeer.Proofs.Shape.Scalars

/-! The scan of a text and the scan of its tree take the same members in. -/
namespace RpcPeer

theorem Slot.readsTrees (slot : Slot) : slot.shape.ReadsTrees := by
  cases slot with
  | version | method | kind => exact .text
  | id => exact .option .id
  | seq | requestSeq => exact .int .int64
  | success => exact .bool
  | message => exact .option .text

namespace Envelope
open Json Steps

/-- Takes one member in. -/
def absorb (dialect : Dialect) (e : Envelope) (m : String × Json) : Except DataError Envelope :=
  match Slot.ofKey? dialect m.1 with
  | some slot => (slot.shape.decode m.2).map (e.fill slot)
  | none => .ok (e.addField m.1 m.2)

section
variable {dialect : Dialect} {rounds : Nat} {first : Bool} {e e' : Envelope} {key : String}
  {cs cs₁ cs₂ cs₃ rest : List Char} {v : Json} {ms : List (String × Json)}

theorem absorb_slot {slot : Slot} (h : Slot.ofKey? dialect key = some slot) :
    absorb dialect e (key, v) = (slot.shape.decode v).map (e.fill slot) := by
  simp only [absorb, h]

theorem absorb_field (h : Slot.ofKey? dialect key = none) :
    absorb dialect e (key, v) = .ok (e.addField key v) := by
  simp only [absorb, h]

theorem scanTree_cons (dialect : Dialect) (e : Envelope) (m : String × Json)
    (ms : List (String × Json)) :
    scanTree dialect e (m :: ms) =
      match absorb dialect e m with
      | .ok e' => scanTree dialect e' ms
      | .error err => (e, some (.data err)) := by
  obtain ⟨key, v⟩ := m
  rw [scanTree]
  cases h : Slot.ofKey? dialect key with
  | some slot =>
    rw [absorb_slot h]
    dsimp only
    cases slot.shape.decode v <;> rfl
  | none => rw [absorb_field h]

theorem scanMembers_more (hkey : nextKey first cs = .ok (some key, cs₁))
    (hcolon : colon cs₁ = .ok ((), cs₂)) (hv : value (maxDepth - 1) cs₂ = .ok (v, cs₃)) :
    scanMembers dialect (rounds + 1) first e cs =
      match absorb dialect e (key, v) with
      | .ok e' => scanMembers dialect rounds false e' cs₃
      | .error err => (e, .error (.data err)) := by
  rw [scanMembers, hkey]
  dsimp only
  rw [hcolon]
  dsimp only
  cases h : Slot.ofKey? dialect key with
  | some slot =>
    rw [absorb_slot h]
    dsimp only
    rw [slot.readsTrees.read_eq hv, Shape.readTree_of_value _ hv]
    cases slot.shape.decode v <;> rfl
  | none =>
    rw [absorb_field h]
    dsimp only
    rw [hv]

/-- The scan of members that can be read is stopped by what they are, never by how they are
written. -/
theorem scanMembers_eq (h : membersWithin (value (maxDepth - 1)) rounds first cs = .ok (ms, rest)) :
    scanMembers dialect rounds first e cs =
      ((scanTree dialect e ms).1, (scanTree dialect e ms).2.elim (.ok rest) .error) := by
  -- in every round both take one member and leave the same characters
  induction rounds generalizing first e cs ms with
  | zero => cases h
  | succ rounds ih =>
    rcases membersWithin_cases h with ⟨cs₁, hkey, hend, rfl⟩ |
      ⟨k, v, ns, cs₁, cs₂, cs₃, hkey, hcolon, hv, hrest, rfl⟩
    · rw [scanMembers, hkey]
      dsimp only
      rw [hend]
      rfl
    · rw [scanMembers_more hkey hcolon hv, scanTree_cons]
      cases absorb dialect e (k, v) with
      | ok e' => exact ih hrest
      | error err => rfl

/-- A member that the scan has passed was read as a tree. -/
theorem value_of_scanMembers (hkey : nextKey first cs = .ok (some key, cs₁))
    (hcolon : colon cs₁ = .ok ((), cs₂))
    (h : scanMembers dialect (rounds + 1) first e cs = (e', .ok rest)) :
    ∃ v cs₃, value (maxDepth - 1) cs₂ = .ok (v, cs₃) := by
  rw [scanMembers, hkey] at h
  dsimp only at h
  rw [hcolon] at h
  dsimp only at h
  split at h
  next slot _ =>
    split at h
    next => cases (congrArg Prod.snd h : Except.error _ = Except.ok _)
    next d cs₃ hread =>
      obtain ⟨v, hv⟩ := slot.readsTrees.value_of_read hread
      exact ⟨v, cs₃, hv⟩
  next =>
    split at h
    next => cases (congrArg Prod.snd h : Except.error _ = Except.ok _)
    next v cs₃ hv => exact ⟨v, cs₃, hv⟩

theorem members_of_scanMembers (h : scanMembers dialect rounds first e cs = (e', .ok rest)) :
    ∃ ms, membersWithin (value (maxDepth - 1)) rounds first cs = .ok (ms, rest) := by
  induction rounds generalizing first e cs with
  | zero => cases (congrArg Prod.snd h : Except.error _ = Except.ok _)
  | succ rounds ih =>
    have hcopy := h
    rw [scanMembers] at h
    split at h
    next => cases (congrArg Prod.snd h : Except.error _ = Except.ok _)
    next cs₁ hkey =>
      obtain ⟨⟨⟨⟩, tail⟩, hend, rfl⟩ := map_eq_ok.mp (congrArg Prod.snd h)
      refine ⟨[], ?_⟩
      simp only [membersWithin, hkey, hend, ok_bind, pure_eq]
    next key cs₁ hkey =>
      split at h
      next => cases (congrArg Prod.snd h : Except.error _ = Except.ok _)
      next cs₂ hcolon =>
        obtain ⟨v, cs₃, hv⟩ := value_of_scanMembers hkey hcolon hcopy
        rw [scanMembers_more hkey hcolon hv] at hcopy
        split at hcopy
        next =>
          obtain ⟨ms, hms⟩ := ih hcopy
          refine ⟨(key, v) :: ms, ?_⟩
          simp only [membersWithin, hkey, hcolon, hv, hms, ok_bind, pure_eq]
        next => cases (congrArg Prod.snd hcopy : Except.error _ = Except.ok _)

end

section
variable {dialect : Dialect} {text : String} {ms : List (String × Json)}

theorem scanText_of_parseMembers (h : parseMembers text = .ok ms) :
    scanText dialect text = scanTree dialect { inObject := true } ms := by
  obtain ⟨rest, hread, hend⟩ := whole_eq_ok.mp h
  obtain ⟨cs, hs⟩ := brace_of_object hread
  rw [object_of_brace hs] at hread
  unfold scanText
  rw [hs]
  simp only [scanMembers_eq hread]
  match scanTree dialect { inObject := true } ms with
  | (e, some err) => rfl
  | (e, none) => simp only [Option.elim_none, hend]

/-- A text whose scan is not stopped is one of an object. -/
theorem exists_parseMembers_of_scanText (h : (scanText dialect text).2 = none) :
    ∃ ms, parseMembers text = .ok ms := by
  unfold scanText at h
  split at h
  next => cases h
  next cs hs =>
    split at h
    next => cases h
    next e rest hscan =>
      split at h
      next hend =>
        obtain ⟨ms, hms⟩ := members_of_scanMembers hscan
        exact ⟨ms, whole_eq_ok.mpr ⟨rest, (object_of_brace hs).trans hms, hend⟩⟩
      next => cases h
  next => cases h

/-- A text that starts with anything but a brace is no message, whatever it is. -/
theorem scanText_of_no_brace (dialect : Dialect) (h : ∀ cs, skipSpace text.toList ≠ '\x7b' :: cs) :
    ∃ err, scanText dialect text = ({}, some err) := by
  unfold scanText
  split
  next => exact ⟨_, rfl⟩
  next cs hs => exact absurd hs (h cs)
  next => exact ⟨_, rfl⟩

end
end Envelope
end RpcPeer
