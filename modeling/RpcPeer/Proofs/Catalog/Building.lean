import Mathlib.Data.List.Perm.Basic
import RpcPeer.Proofs.Catalog.Walk

/-! A catalog is built exactly from the drafts that are sound. -/
namespace RpcPeer
open Steps

theorem firstRepeated?_eq_none {seen ns : List String} (h : firstRepeated? seen ns = none) :
    ns.Nodup ∧ ∀ n ∈ ns, n ∉ seen := by
  induction ns generalizing seen with
  | nil => simp
  | cons n ns ih =>
    rw [firstRepeated?] at h
    split at h
    · cases h
    · rename_i hn
      obtain ⟨hnodup, hfresh⟩ := ih h
      refine ⟨List.nodup_cons.mpr ⟨fun hm => hfresh n hm List.mem_cons_self, hnodup⟩, ?_⟩
      intro x hx
      rcases List.mem_cons.mp hx with rfl | hx
      · exact hn
      · exact fun hs => hfresh x hx (List.mem_cons_of_mem _ hs)

theorem firstRepeated?_eq_some {seen ns : List String} {name : String}
    (h : firstRepeated? seen ns = some name) :
    name ∈ seen ∧ name ∈ ns ∨ 2 ≤ ns.count name := by
  induction ns generalizing seen with
  | nil => cases h
  | cons n ns ih =>
    rw [firstRepeated?] at h
    split at h
    next hn =>
      cases h
      exact .inl ⟨hn, List.mem_cons_self⟩
    next =>
      rcases ih h with ⟨hs, hns⟩ | hcount
      · rcases List.mem_cons.mp hs with rfl | hs
        · have hpos : 0 < ns.count name := List.count_pos_iff.mpr hns
          rw [List.count_cons_self]
          exact .inr (by omega)
        · exact .inl ⟨hs, List.mem_cons_of_mem _ hns⟩
      · exact .inr (hcount.trans List.count_le_count_cons)

namespace CatalogDraft

section
variable {d : CatalogDraft} {c : Collected} {e : CatalogError} {name : String} {names : List String}

theorem collect_outcome (d : CatalogDraft) (h : (d.groups.map (·.name)).Nodup) :
    d.collect = d.visitAll [] d.roots {} ∧
      d.Outcome [] {} d.roots (d.visitAll [] d.roots {}) := by
  have hstart : d.Progress [] {} :=
    ⟨.nil, by simp, by simp, by simp, by simp [Collected.names]⟩
  constructor
  · unfold collect
    split
    next name hname =>
      rcases firstRepeated?_eq_some hname with ⟨hnil, -⟩ | hcount
      · exact absurd hnil List.not_mem_nil
      · have hle := List.nodup_iff_count_le_one.mp h name
        omega
    next => rfl
  · refine visitAll_outcome (fun n hn c hc => visit_outcome ?_ hc) hstart
    exact ⟨by simpa using Reachable.of_root hn, List.isChain_singleton n, List.nodup_nil⟩

theorem trueOf_of_collect (h : d.collect = .error e) : e.TrueOf d := by
  by_cases hnodup : (d.groups.map (·.name)).Nodup
  · obtain ⟨hwalk, hout⟩ := d.collect_outcome hnodup
    rw [← hwalk, h] at hout
    exact hout
  · unfold collect at h
    split at h
    next name hname =>
      cases h
      rcases firstRepeated?_eq_some hname with ⟨hnil, -⟩ | hcount
      · exact absurd hnil List.not_mem_nil
      · exact hcount
    next hname => exact absurd (firstRepeated?_eq_none hname).1 hnodup

theorem collect_eq_ok (h : d.collect = .ok c) :
    (d.groups.map (·.name)).Nodup ∧ d.Progress [] c ∧ ∀ n, n ∈ c.done ↔ d.Reachable n := by
  have hnodup : (d.groups.map (·.name)).Nodup := by
    unfold collect at h
    split at h
    next => cases h
    next hname => exact (firstRepeated?_eq_none hname).1
  obtain ⟨hwalk, hout⟩ := d.collect_outcome hnodup
  rw [← hwalk, h] at hout
  obtain ⟨hp, -, hroots⟩ := hout
  refine ⟨hnodup, hp, fun n => ⟨hp.reachable n, ?_⟩⟩
  rintro ⟨root, hroot, hn⟩
  exact hp.settled.closed_walk (hroots root hroot) hn

theorem Progress.entries (h : d.Progress [] c) :
    (c.methods.map (·.1)).Perm (c.done.flatMap d.entriesOf) := by
  have howned : ∀ n, (d.owned n).map (·.1) = d.entriesOf n := fun n => by
    rw [owned, List.map_map]
    exact List.map_id _
  have hperm := h.methods.map (·.1)
  rw [List.append_nil, List.map_flatMap] at hperm
  simpa only [howned] using hperm

theorem Progress.fullNames (h : d.Progress [] c) : (c.done.flatMap d.fullNames).Nodup := by
  have hperm := h.entries.map (·.name)
  rw [List.map_flatMap, List.map_map] at hperm
  exact hperm.nodup_iff.mp h.distinct

theorem sound_of_collect (h : d.collect = .ok c) : d.Sound := by
  obtain ⟨honce, hp, hdone⟩ := collect_eq_ok h
  refine ⟨honce, ?_, ?_, ?_⟩
  · exact fun n hn => hp.settled.defined ((hdone n).mpr hn)
  · exact fun n hn => hp.settled.acyclic ((hdone n).mpr hn)
  · intro a i m b j n ha hb hname
    exact (nodup_fullNames_iff hp.settled.nodup).mp hp.fullNames a ((hdone a).mpr ha.1) b
      ((hdone b).mpr hb.1) i j m n ha.2 hb.2 hname

theorem transGen_of_isChain {a b : String} {between : List String}
    (h : (a :: (between ++ [b])).IsChain d.Delegates) : Relation.TransGen d.Delegates a b := by
  induction between generalizing a with
  | nil => exact .single (List.isChain_pair.mp h)
  | cons x xs ih =>
    obtain ⟨hx, hxs⟩ := List.isChain_cons_cons.mp h
    exact .head hx (ih hxs)

/-- A list of two names or more that starts and ends with one name. -/
theorem exists_between (hlength : 2 ≤ names.length) (hclosed : names.head? = names.getLast?) :
    ∃ name between, names = name :: (between ++ [name]) := by
  obtain ⟨name, rest, rfl⟩ := List.exists_cons_of_length_pos (Nat.zero_lt_of_lt hlength)
  rcases List.eq_nil_or_concat' rest with rfl | ⟨between, last, rfl⟩
  · simp at hlength
  · rw [List.head?_cons, ← List.cons_append, List.getLast?_concat] at hclosed
    exact ⟨name, between, by rw [Option.some.inj hclosed]⟩

/-- A reason to stop is a reason against the draft. -/
theorem Sound.not_trueOf (h : d.Sound) (e : CatalogError) : ¬ e.TrueOf d := by
  intro he
  cases e with
  | duplicateGroup name =>
    have hle := List.nodup_iff_count_le_one.mp h.once name
    have hge : 2 ≤ (d.groups.map (·.name)).count name := he
    omega
  | unknownGroup name =>
    obtain ⟨hcalled, hnone⟩ := he
    obtain ⟨g, hg⟩ := h.defined name (calledFor_iff.mp hcalled)
    cases (find?_eq_none_iff.mpr hnone).symm.trans hg
  | delegationCycle names =>
    obtain ⟨hlength, hclosed, -, hchain, hreach⟩ := he
    obtain ⟨name, between, rfl⟩ := exists_between hlength hclosed
    exact h.acyclic name (hreach name List.mem_cons_self) (transGen_of_isChain hchain)
  | duplicateMethod method first second =>
    obtain ⟨i, j, hfirst, hsecond, hne⟩ := he
    obtain ⟨m, hm, rfl⟩ := places_iff.mp hfirst
    obtain ⟨n, hn, hname⟩ := places_iff.mp hsecond
    exact hne (Prod.mk.injEq .. ▸ h.distinct first i m second j n hm hn hname.symm)

theorem exists_collect_iff : (∃ c, d.collect = .ok c) ↔ d.Sound := by
  constructor
  · rintro ⟨c, hc⟩
    exact sound_of_collect hc
  · intro h
    cases hc : d.collect with
    | ok c => exact ⟨c, rfl⟩
    | error e => exact absurd (trueOf_of_collect hc) (h.not_trueOf e)

theorem build_eq_ok_iff {catalog : Catalog} {entry : LogEntry} :
    d.build = .ok (catalog, entry) ↔
      ∃ c, d.collect = .ok c ∧ catalog = ⟨c.methods.map (·.1)⟩ ∧ entry = ⟨.debug,
        s!"Built method registry with {(c.methods.map (·.1)).length} methods from {c.done.length} groups"⟩ := by
  unfold build
  rw [bind_eq_ok]
  constructor
  · rintro ⟨c, hc, h⟩
    cases h
    exact ⟨c, hc, rfl, rfl⟩
  · rintro ⟨c, hc, rfl, rfl⟩
    exact ⟨c, hc, rfl⟩

theorem exists_build_iff : (∃ r, d.build = .ok r) ↔ d.Sound := by
  rw [← exists_collect_iff]
  constructor
  · rintro ⟨⟨catalog, entry⟩, h⟩
    obtain ⟨c, hc, -⟩ := build_eq_ok_iff.mp h
    exact ⟨c, hc⟩
  · rintro ⟨c, hc⟩
    exact ⟨_, build_eq_ok_iff.mpr ⟨c, hc, rfl, rfl⟩⟩

section
variable {catalog : Catalog} {entry : LogEntry} {m : MethodEntry}

theorem exists_registers_iff :
    (∃ owner i, d.Registers owner i m) ↔ ∃ owner, d.Reachable owner ∧ m ∈ d.entriesOf owner := by
  constructor
  · rintro ⟨owner, i, hreach, hi⟩
    exact ⟨owner, hreach, List.mem_of_getElem? hi⟩
  · rintro ⟨owner, hreach, hm⟩
    obtain ⟨i, hi⟩ := List.mem_iff_getElem?.mp hm
    exact ⟨owner, i, hreach, hi⟩

theorem mem_entries_of_build (h : d.build = .ok (catalog, entry)) :
    m ∈ catalog.entries ↔ ∃ owner i, d.Registers owner i m := by
  obtain ⟨c, hc, rfl, -⟩ := build_eq_ok_iff.mp h
  obtain ⟨-, hp, hdone⟩ := collect_eq_ok hc
  rw [exists_registers_iff, hp.entries.mem_iff, List.mem_flatMap]
  simp only [hdone]

theorem nodup_names_of_build (h : d.build = .ok (catalog, entry)) :
    (catalog.entries.map (·.name)).Nodup := by
  obtain ⟨c, hc, rfl, -⟩ := build_eq_ok_iff.mp h
  obtain ⟨-, hp, -⟩ := collect_eq_ok hc
  rw [List.map_map]
  exact hp.distinct

theorem find?_of_build (h : d.build = .ok (catalog, entry)) :
    catalog.find? name = some m ↔ m.name = name ∧ ∃ owner i, d.Registers owner i m := by
  rw [← mem_entries_of_build h]
  constructor
  · intro hm
    exact ⟨by simpa using List.find?_some hm, List.mem_of_find?_eq_some hm⟩
  · rintro ⟨rfl, hm⟩
    exact find?_eq_some_of_nodup (nodup_names_of_build h) hm

end

end
end CatalogDraft
end RpcPeer
