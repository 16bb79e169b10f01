import Mathlib
import RpcPeer.Proofs.Catalog.Building

/-! Drafts that list the same things in another order. -/
namespace RpcPeer

/-- The same group, with its methods and its delegates in any order. -/
structure Group.Rearranged (g h : Group) : Prop where
  name : g.name = h.name
  segment : g.segment = h.segment
  methods : g.methods.Perm h.methods
  delegates : g.delegates.Perm h.delegates

theorem Group.Rearranged.symm {g h : Group} (r : g.Rearranged h) : h.Rearranged g :=
  ⟨r.name.symm, r.segment.symm, r.methods.symm, r.delegates.symm⟩

theorem Group.Rearranged.entries {g h : Group} (r : g.Rearranged h) :
    g.entries.Perm h.entries := by
  rw [Group.entries, Group.entries, r.segment]
  exact r.methods.map _

namespace CatalogDraft
open Relation

/-- The same groups and the same roots, in any order. -/
structure Rearranged (d d' : CatalogDraft) : Prop where
  groups : ∃ gs, d.groups.Perm gs ∧ List.Forall₂ Group.Rearranged gs d'.groups
  roots : d.roots.Perm d'.roots

section
variable {d d' : CatalogDraft} {a b name : String} {g : Group}

theorem Rearranged.symm (h : d.Rearranged d') : d'.Rearranged d where
  groups := by
    obtain ⟨gs, hperm, hforall⟩ := h.groups
    obtain ⟨hs, hh, hp⟩ := List.perm_comp_forall₂ hperm hforall
    exact ⟨hs, hp.symm, hh.flip.imp fun _ _ r => r.symm⟩
  roots := h.roots.symm

theorem Rearranged.names (h : d.Rearranged d') :
    (d.groups.map (·.name)).Perm (d'.groups.map (·.name)) := by
  obtain ⟨gs, hperm, hforall⟩ := h.groups
  have hnames : gs.map (·.name) = d'.groups.map (·.name) := by
    rw [← List.forall₂_eq_eq_eq, List.forall₂_map_left_iff, List.forall₂_map_right_iff]
    exact hforall.imp fun _ _ r => r.name
  exact hnames ▸ hperm.map (·.name)

theorem Rearranged.find? (h : d.Rearranged d') (hd : (d.groups.map (·.name)).Nodup)
    (hg : d.find? name = some g) : ∃ g', d'.find? name = some g' ∧ g.Rearranged g' := by
  obtain ⟨gs, hperm, hforall⟩ := h.groups
  have hmem : g ∈ gs := hperm.mem_iff.mp (mem_groups_of_find? hg)
  obtain ⟨i, hi, hgi⟩ := List.mem_iff_getElem.mp hmem
  have hlt : i < d'.groups.length := hforall.length_eq ▸ hi
  have hr : g.Rearranged d'.groups[i] := hgi ▸ hforall.get hi hlt
  have hfound := find?_of_mem (h.names.nodup_iff.mp hd) (List.getElem_mem hlt)
  rw [← hr.name, name_of_find? hg] at hfound
  exact ⟨_, hfound, hr⟩

theorem Rearranged.delegates (h : d.Rearranged d') (hd : (d.groups.map (·.name)).Nodup)
    (hab : d.Delegates a b) : d'.Delegates a b := by
  obtain ⟨g, hg, hb⟩ := hab
  obtain ⟨g', hg', hr⟩ := h.find? hd hg
  exact ⟨g', hg', hr.delegates.mem_iff.mp hb⟩

theorem Rearranged.reachable (h : d.Rearranged d') (hd : (d.groups.map (·.name)).Nodup)
    (ha : d.Reachable a) : d'.Reachable a := by
  obtain ⟨root, hroot, hwalk⟩ := ha
  exact ⟨root, h.roots.mem_iff.mp hroot, ReflTransGen.mono (fun _ _ => h.delegates hd) _ _ hwalk⟩

theorem Rearranged.entriesOf (h : d.Rearranged d') (hs : d.Sound) (ha : d.Reachable a) :
    (d.entriesOf a).Perm (d'.entriesOf a) := by
  obtain ⟨g, hg⟩ := hs.defined a ha
  obtain ⟨g', hg', hr⟩ := h.find? hs.once hg
  rw [entriesOf_of_find? hg, entriesOf_of_find? hg']
  exact hr.entries

theorem Rearranged.sound (h : d.Rearranged d') (hs : d.Sound) : d'.Sound := by
  have hd' : (d'.groups.map (·.name)).Nodup := h.names.nodup_iff.mp hs.once
  have hback : ∀ n, d'.Reachable n → d.Reachable n := fun n => h.symm.reachable hd'
  refine ⟨hd', ?_, ?_, ?_⟩
  · intro n hn
    obtain ⟨g, hg⟩ := hs.defined n (hback n hn)
    obtain ⟨g', hg', -⟩ := h.find? hs.once hg
    exact ⟨g', hg'⟩
  · intro n hn hcycle
    exact hs.acyclic n (hback n hn) (TransGen.mono (fun _ _ => h.symm.delegates hd') _ _ hcycle)
  · -- positions change, but the full names of the two groups stay distinct
    intro a i m b j n hm hn hname
    have hreach : ∀ x ∈ [a, b].dedup, d.Reachable x := by
      intro x hx
      rcases List.mem_pair.mp (List.mem_dedup.mp hx) with rfl | rfl
      · exact hback _ hm.1
      · exact hback _ hn.1
    have hnames : ([a, b].dedup.flatMap d.fullNames).Nodup :=
      (nodup_fullNames_iff (List.nodup_dedup _)).mpr fun x hx y hy i j m n hm hn hname =>
        hs.distinct x i m y j n ⟨hreach x hx, hm⟩ ⟨hreach y hy, hn⟩ hname
    have hperm : ([a, b].dedup.flatMap d.fullNames).Perm ([a, b].dedup.flatMap d'.fullNames) :=
      List.Perm.flatMap_left _ fun x hx => (h.entriesOf hs (hreach x hx)).map _
    exact (nodup_fullNames_iff (List.nodup_dedup _)).mp (hperm.nodup_iff.mp hnames) a (by simp) b
      (by simp) i j m n hm.2 hn.2 hname

theorem Rearranged.exists_registers (h : d.Rearranged d') (hs : d.Sound) {m : MethodEntry}
    (hm : ∃ owner i, d.Registers owner i m) : ∃ owner i, d'.Registers owner i m := by
  rw [exists_registers_iff] at hm ⊢
  obtain ⟨owner, hreach, hmem⟩ := hm
  exact ⟨owner, h.reachable hs.once hreach, (h.entriesOf hs hreach).mem_iff.mp hmem⟩

end

theorem find?_eq_of_rearranged {d d' : CatalogDraft} {c c' : Catalog} {e e' : LogEntry}
    (hr : d.Rearranged d') (h : d.build = .ok (c, e)) (h' : d'.build = .ok (c', e'))
    (name : String) : c.find? name = c'.find? name := by
  have hs : d.Sound := exists_build_iff.mp ⟨_, h⟩
  have hs' : d'.Sound := exists_build_iff.mp ⟨_, h'⟩
  refine Option.ext fun m => ?_
  rw [find?_of_build h, find?_of_build h']
  exact and_congr_right fun _ => ⟨hr.exists_registers hs, hr.symm.exists_registers hs'⟩

/-- A build succeeds exactly for the sound drafts. The catalog has every full name once, and it has
exactly the methods of the places of reachable groups. Another order of the groups, the roots, the
methods or the delegates changes neither. -/
theorem build_of_sound (d : CatalogDraft) :
    ((∃ r, d.build = .ok r) ↔ d.Sound) ∧
    (∀ c entry, d.build = .ok (c, entry) →
      (c.entries.map (·.name)).Nodup ∧
      ∀ name m, c.find? name = some m ↔ m.name = name ∧ ∃ owner i, d.Registers owner i m) ∧
    ∀ d', d.Rearranged d' →
      ((∃ r, d.build = .ok r) ↔ ∃ r, d'.build = .ok r) ∧
      ∀ c c' entry entry', d.build = .ok (c, entry) → d'.build = .ok (c', entry') →
        ∀ name, c.find? name = c'.find? name := by
  refine ⟨exists_build_iff, fun c entry h => ?_, fun d' hr => ⟨?_, ?_⟩⟩
  · exact ⟨nodup_names_of_build h, fun name m => find?_of_build h⟩
  · rw [exists_build_iff, exists_build_iff]
    exact ⟨hr.sound, hr.symm.sound⟩
  · exact fun c c' entry entry' h h' => find?_eq_of_rearranged hr h h'

/-- A group that two others delegate to, and roots that are listed twice. -/
theorem build_of_sound_shared_delegate :
    let shared : Group := ⟨"shared", "c/", [⟨"x", .notification, .json, none⟩], []⟩
    let d : CatalogDraft := {
      groups := [
        ⟨"top", "a/", [⟨"x", .request, .text, some .bool⟩, ⟨"y", .request, .text, some .text⟩],
          ["left", "shared"]⟩,
        ⟨"left", "", [⟨"x", .notification, .text, none⟩], ["shared"]⟩, shared]
      localRoots := ["top", "shared"]
      remoteRoots := ["top"] }
    let d' : CatalogDraft := {
      groups := [⟨"left", "", [⟨"x", .notification, .text, none⟩], ["shared"]⟩,
        ⟨"top", "a/", [⟨"y", .request, .text, some .text⟩, ⟨"x", .request, .text, some .bool⟩],
          ["shared", "left"]⟩, shared]
      localRoots := ["shared"]
      remoteRoots := ["top", "top"] }
    d.Rearranged d' ∧ d.Sound ∧ ∃ c c' entry entry',
      d.build = .ok (c, entry) ∧ d'.build = .ok (c', entry') ∧ (c.entries.map (·.name)).Nodup ∧
        c.find? "a/x" = some ⟨"a/x", .request, .text, some .bool⟩ ∧
        c'.find? "a/x" = some ⟨"a/x", .request, .text, some .bool⟩ := by
  intro shared d d'
  have hr : d.Rearranged d' := by
    refine ⟨⟨_, .swap _ _ _, .cons ?_ (.cons ?_ (.cons ?_ .nil))⟩, by decide⟩
    · exact ⟨rfl, rfl, .refl _, .refl _⟩
    · exact ⟨rfl, rfl, .swap _ _ _, .swap _ _ _⟩
    · exact ⟨rfl, rfl, .refl _, .refl _⟩
  obtain ⟨hsound, hcatalog, hrearranged⟩ := build_of_sound d
  obtain ⟨hboth, hsame⟩ := hrearranged d' hr
  have h : ∃ r, d.build = .ok r := ⟨_, by cbv⟩
  obtain ⟨⟨c, entry⟩, hd⟩ := h
  obtain ⟨⟨c', entry'⟩, hd'⟩ := hboth.mp ⟨_, hd⟩
  obtain ⟨hnodup, hfind⟩ := hcatalog c entry hd
  have hx : c.find? "a/x" = some ⟨"a/x", .request, .text, some .bool⟩ :=
    (hfind _ _).mpr ⟨rfl, "top", 0, .of_root (by decide), rfl⟩
  exact ⟨hr, hsound.mp ⟨_, hd⟩, c, c', entry, entry', hd, hd', hnodup, hx,
    (hsame c c' entry entry' hd hd' "a/x").symm.trans hx⟩

end CatalogDraft
end RpcPeer
