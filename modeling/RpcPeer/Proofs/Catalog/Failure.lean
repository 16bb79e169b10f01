import Mathlib
import RpcPeer.Proofs.Catalog.Building

/-! What the error of a failed build says about the draft. -/
namespace RpcPeer
namespace CatalogDraft

variable {d : CatalogDraft} {e : CatalogError}

theorem build_eq_error_iff : d.build = .error e ↔ d.collect = .error e := by
  unfold build
  cases hc : d.collect with
  | ok c => exact ⟨nofun, nofun⟩
  | error e' => simp only [Steps.error_bind, Except.error.injEq]

/-- The error of a failed build is true of the draft, and a build fails whenever an error is. -/
theorem build_error_trueOf (d : CatalogDraft) :
    (∀ e, d.build = .error e → e.TrueOf d) ∧
      ((∃ e, d.build = .error e) ↔ ∃ e : CatalogError, e.TrueOf d) := by
  have htrue : ∀ e, d.build = .error e → e.TrueOf d := fun e he =>
    trueOf_of_collect (build_eq_error_iff.mp he)
  refine ⟨htrue, fun ⟨e, he⟩ => ⟨e, htrue e he⟩, ?_⟩
  rintro ⟨e, he⟩
  cases hb : d.build with
  | error e' => exact ⟨e', rfl⟩
  | ok r => exact absurd he ((exists_build_iff.mp ⟨r, hb⟩).not_trueOf e)

/-- A cycle that a group leads to which is not on it, and a name that a group and its delegate
register; the walk stops in the delegate before it is done with the group. -/
theorem build_error_trueOf_inner_cycle :
    let d : CatalogDraft := {
      groups := [⟨"a", "", [], ["b"]⟩, ⟨"b", "", [], ["c"]⟩, ⟨"c", "", [], ["b"]⟩]
      remoteRoots := ["a"] }
    let d' : CatalogDraft := {
      groups := [⟨"a", "x/", [⟨"y", .request, .text, some .bool⟩], ["b"]⟩,
        ⟨"b", "", [⟨"z", .notification, .json, none⟩, ⟨"x/y", .notification, .json, none⟩], []⟩]
      localRoots := ["a"] }
    d.build = .error (.delegationCycle ["b", "c", "b"]) ∧ d.Cycle ["b", "c", "b"] ∧
      d'.build = .error (.duplicateMethod "x/y" "a" "b") ∧
      ∃ i j, d'.Places "x/y" "a" i ∧ d'.Places "x/y" "b" j ∧ ("a", i) ≠ ("b", j) := by
  intro d d'
  have hd : d.build = .error (.delegationCycle ["b", "c", "b"]) := by cbv
  have hd' : d'.build = .error (.duplicateMethod "x/y" "a" "b") := by cbv
  exact ⟨hd, (build_error_trueOf d).1 _ hd, hd', (build_error_trueOf d').1 _ hd'⟩

end CatalogDraft
end RpcPeer
