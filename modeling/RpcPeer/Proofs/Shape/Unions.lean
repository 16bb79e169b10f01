import Mathlib.Data.List.Forall2
import RpcPeer.Proofs.Shape.Equality

/-! Untagged unions: the first alternative that accepts a tree takes it. -/
namespace RpcPeer
open Steps

/-- A type put together from untagged unions and lists. A leaf is any type, by its name and the way
in which its values are read. -/
inductive UnionType
  | leaf (name : String) (read : Json → Except DataError Datum)
  | list (item : UnionType)
  | either (first second : UnionType)
  | either3 (first second third : UnionType)

namespace UnionType

def name : UnionType → String
  | leaf n _ => n
  | list t => s!"alloc::vec::Vec<{t.name}>"
  | either a b => s!"{Shape.libraryPath}::jsonrpc::either::Either<{a.name}, {b.name}>"
  | either3 a b c =>
    s!"{Shape.libraryPath}::jsonrpc::either::Either3<{a.name}, {b.name}, {c.name}>"

def decode : UnionType → Json → Except DataError Datum
  | leaf _ read, v => read v
  | list t, .arr vs => (vs.mapM t.decode).map .list
  | list _, v => .error (v.mismatch "a sequence")
  | either a b, v => Shape.decodeFirst v 0 [] [(a.name, a.decode), (b.name, b.decode)]
  | either3 a b c, v =>
    Shape.decodeFirst v 0 [] [(a.name, a.decode), (b.name, b.decode), (c.name, c.decode)]

/-- The unions and lists of a shape; all other shapes are leaves. -/
def ofShape : Shape → UnionType
  | .list s => list (ofShape s)
  | .either a b => either (ofShape a) (ofShape b)
  | .either3 a b c => either3 (ofShape a) (ofShape b) (ofShape c)
  | s => leaf s.typeName s.decode

/-- The alternatives in the order in which they are declared. -/
def branches : UnionType → List UnionType
  | leaf .. | list _ => []
  | either a b => [a, b]
  | either3 a b c => [a, b, c]

def Accepts (t : UnionType) (v : Json) : Prop := ∃ d, t.decode v = .ok d

/-- None of these before the one at this place accepts the tree. -/
def NoneBefore (bs : List UnionType) (i : Nat) (v : Json) : Prop :=
  ∀ j b, j < i → bs[j]? = some b → ¬ b.Accepts v

/-- The values of a type. At a leaf these are the values that are read back from what they are
written as. -/
inductive Holds : UnionType → Datum → Prop
  | leaf {n : String} {read : Json → Except DataError Datum} {x : Datum} {v : Json}
      (written : x.toJson = .ok v) (read_eq : read v = .ok x) : Holds (leaf n read) x
  | nil {t : UnionType} : Holds (list t) (.list [])
  | cons {t : UnionType} {x : Datum} {xs : List Datum} (head : Holds t x)
      (tail : Holds (list t) (.list xs)) : Holds (list t) (.list (x :: xs))
  | union {t b : UnionType} {i : Nat} {x : Datum} (branch : t.branches[i]? = some b)
      (value : Holds b x) : Holds t (.alternative i x)

/-- At every union of the value no alternative before the one that is taken accepts what is written
there. -/
inductive Unshadowed : UnionType → Datum → Prop
  | leaf {n : String} {read : Json → Except DataError Datum} {x : Datum} :
      Unshadowed (leaf n read) x
  | nil {t : UnionType} : Unshadowed (list t) (.list [])
  | cons {t : UnionType} {x : Datum} {xs : List Datum} (head : Unshadowed t x)
      (tail : Unshadowed (list t) (.list xs)) : Unshadowed (list t) (.list (x :: xs))
  | union {t b : UnionType} {i : Nat} {x : Datum} {v : Json} (branch : t.branches[i]? = some b)
      (written : x.toJson = .ok v) (first : NoneBefore t.branches i v) (value : Unshadowed b x) :
      Unshadowed t (.alternative i x)

/-- What a value turns into when it is written and read. From the top down to the first union at
which an earlier alternative accepts what is written there, everything stays; that union becomes
what the earliest such alternative reads. -/
inductive Resolves : UnionType → Datum → Datum → Prop
  | leaf {n : String} {read : Json → Except DataError Datum} {x : Datum} :
      Resolves (leaf n read) x x
  | nil {t : UnionType} : Resolves (list t) (.list []) (.list [])
  | cons {t : UnionType} {x y : Datum} {xs ys : List Datum} (head : Resolves t x y)
      (tail : Resolves (list t) (.list xs) (.list ys)) :
      Resolves (list t) (.list (x :: xs)) (.list (y :: ys))
  | kept {t b : UnionType} {i : Nat} {x y : Datum} {v : Json} (branch : t.branches[i]? = some b)
      (written : x.toJson = .ok v) (first : NoneBefore t.branches i v) (value : Resolves b x y) :
      Resolves t (.alternative i x) (.alternative i y)
  | captured {t b : UnionType} {i j : Nat} {x y : Datum} {v : Json} (written : x.toJson = .ok v)
      (earlier : j < i) (branch : t.branches[j]? = some b) (first : NoneBefore t.branches j v)
      (accepted : b.decode v = .ok y) : Resolves t (.alternative i x) (.alternative j y)

variable {t b : UnionType} {x y z : Datum} {xs ys : List Datum} {v : Json} {i j : Nat}

theorem name_ofShape (s : Shape) : (ofShape s).name = s.typeName := by
  -- by `congrArg` and not by unfolding `name`: the equations of its texts are slow to come by
  cases s with
  | list s => exact congrArg (fun n => s!"alloc::vec::Vec<{n}>") (name_ofShape s)
  | either a b =>
    have ha := name_ofShape a
    have hb := name_ofShape b
    exact congrArg₂ (fun m n => s!"{Shape.libraryPath}::jsonrpc::either::Either<{m}, {n}>") ha hb
  | either3 a b c =>
    have ha := name_ofShape a
    have hb := name_ofShape b
    have hc := name_ofShape c
    have hab := congrArg₂ (fun l m (n : String) =>
      s!"{Shape.libraryPath}::jsonrpc::either::Either3<{l}, {m}, {n}>") ha hb
    exact congr hab hc
  | _ => rfl

/-- A shape is read as the type that its unions and lists make up. -/
theorem decode_ofShape (s : Shape) : (ofShape s).decode = s.decode := by
  funext v
  cases s with
  | list s =>
    have hs := decode_ofShape s
    cases v <;> simp only [ofShape, decode, Shape.decode, hs]
  | either a b =>
    have ha := decode_ofShape a
    have hb := decode_ofShape b
    simp only [ofShape, decode, Shape.decode, ha, hb, name_ofShape]
  | either3 a b c =>
    have ha := decode_ofShape a
    have hb := decode_ofShape b
    have hc := decode_ofShape c
    simp only [ofShape, decode, Shape.decode, ha, hb, hc, name_ofShape]
  | _ => rfl

theorem decode_list_nil : (list t).decode (.arr []) = .ok (.list []) := rfl

theorem decode_list_cons {vs : List Json} {d : Datum} :
    (list t).decode (.arr (v :: vs)) = .ok d ↔
      ∃ y ys, t.decode v = .ok y ∧ (list t).decode (.arr vs) = .ok (.list ys) ∧
        d = .list (y :: ys) := by
  simp only [decode, List.mapM_cons, map_eq_ok, bind_eq_ok, pure_eq, Except.ok.injEq,
    Datum.list.injEq, exists_eq_right]
  constructor
  · rintro ⟨_, ⟨y, hy, ys, hys, rfl⟩, rfl⟩
    exact ⟨y, ys, hy, hys, rfl⟩
  · rintro ⟨y, ys, hy, hys, rfl⟩
    exact ⟨y :: ys, ⟨y, hy, ys, hys, rfl⟩, rfl⟩

theorem exists_arr_of_toJson {w : Json} (h : (Datum.list xs).toJson = .ok w) :
    ∃ vs, w = .arr vs := by
  obtain ⟨vs, -, hw⟩ := bind_eq_ok.mp h
  exact ⟨vs, (Except.ok.inj hw).symm⟩

theorem toJson_list_cons {w : Json} :
    (Datum.list (x :: xs)).toJson = .ok w ↔
      ∃ v vs, x.toJson = .ok v ∧ (Datum.list xs).toJson = .ok (.arr vs) ∧ w = .arr (v :: vs) := by
  simp only [Datum.toJson, Datum.itemsToJson, bind_eq_ok, pure_eq, Except.ok.injEq,
    Json.arr.injEq, exists_eq_right]
  constructor
  · rintro ⟨_, ⟨v, hv, vs, hvs, rfl⟩, rfl⟩
    exact ⟨v, vs, hv, hvs, rfl⟩
  · rintro ⟨v, vs, hv, hvs, rfl⟩
    exact ⟨v :: vs, ⟨v, hv, vs, hvs, rfl⟩, rfl⟩

/-- A list is read item by item. -/
theorem decode_list_iff {vs : List Json} :
    (list t).decode (.arr vs) = .ok (.list ys) ↔
      List.Forall₂ (fun v y => t.decode v = .ok y) vs ys := by
  induction vs generalizing ys with
  | nil =>
    rw [decode_list_nil, List.forall₂_nil_left_iff, Except.ok.injEq, Datum.list.injEq]
    exact eq_comm
  | cons v vs ih =>
    rw [decode_list_cons, List.forall₂_cons_left_iff]
    simp only [ih, Datum.list.injEq]

/-- The alternative at this place accepts the tree as this value, and none before it accepts it. -/
structure Picks (bs : List UnionType) (v : Json) (i : Nat) (y : Datum) : Prop where
  accepted : ∃ b, bs[i]? = some b ∧ b.decode v = .ok y
  first : NoneBefore bs i v

variable {bs : List UnionType}

theorem noneBefore_succ :
    NoneBefore (b :: bs) (i + 1) v ↔ ¬ b.Accepts v ∧ NoneBefore bs i v := by
  constructor
  · intro h
    refine ⟨h 0 b (Nat.succ_pos i) rfl, fun j c hj hc => ?_⟩
    exact h (j + 1) c (Nat.succ_lt_succ hj) hc
  · rintro ⟨hb, h⟩ j c hj hc
    cases j with
    | zero =>
      have hbc : b = c := Option.some.inj hc
      exact hbc ▸ hb
    | succ j => exact h j c (Nat.lt_of_succ_lt_succ hj) hc

theorem picks_zero : Picks (b :: bs) v 0 y ↔ b.decode v = .ok y := by
  constructor
  · rintro ⟨⟨c, hc, hy⟩, -⟩
    have hbc : b = c := Option.some.inj hc
    exact hbc ▸ hy
  · intro hy
    exact ⟨⟨b, rfl, hy⟩, fun j c hj => absurd hj (Nat.not_lt_zero j)⟩

theorem picks_succ :
    Picks (b :: bs) v (i + 1) y ↔ ¬ b.Accepts v ∧ Picks bs v i y := by
  constructor
  · rintro ⟨hc, hfirst⟩
    obtain ⟨hb, hbs⟩ := noneBefore_succ.mp hfirst
    exact ⟨hb, hc, hbs⟩
  · rintro ⟨hb, hc, hbs⟩
    exact ⟨hc, noneBefore_succ.mpr ⟨hb, hbs⟩⟩

/-- Trial in order keeps what the first alternative that accepts makes of the tree. -/
theorem decodeFirst_eq_ok_iff {index : Nat} {failed : List (String × DataError)} {d : Datum} :
    Shape.decodeFirst v index failed (bs.map fun b => (b.name, b.decode)) = .ok d ↔
      ∃ i y, Picks bs v i y ∧ d = .alternative (index + i) y := by
  induction bs generalizing index failed with
  | nil =>
    constructor
    · intro h
      cases h
    · rintro ⟨i, y, ⟨⟨b, hb, -⟩, -⟩, -⟩
      cases hb
  | cons b bs ih =>
    rw [List.map_cons, Shape.decodeFirst]
    cases hv : b.decode v with
    | ok y =>
      constructor
      · intro h
        exact ⟨0, y, picks_zero.mpr hv, (Except.ok.inj h).symm⟩
      · rintro ⟨i, z, hz, rfl⟩
        cases i with
        | zero =>
          have hyz : Except.ok y = Except.ok z := hv.symm.trans (picks_zero.mp hz)
          exact congrArg (·.map (Datum.alternative index)) hyz
        | succ i => exact absurd ⟨y, hv⟩ (picks_succ.mp hz).1
    | error e =>
      have hb : ¬ b.Accepts v := by
        rintro ⟨y, hy⟩
        exact nomatch hv.symm.trans hy
      refine ih.trans ⟨?_, ?_⟩
      · rintro ⟨i, y, hy, rfl⟩
        exact ⟨i + 1, y, picks_succ.mpr ⟨hb, hy⟩, by rw [Nat.add_right_comm, Nat.add_assoc]⟩
      · rintro ⟨i, y, hy, rfl⟩
        cases i with
        | zero => exact absurd ⟨y, picks_zero.mp hy⟩ hb
        | succ i =>
          exact ⟨i, y, (picks_succ.mp hy).2, by rw [Nat.add_right_comm, Nat.add_assoc]⟩

theorem decode_union (hb : t.branches[i]? = some b) {d : Datum} :
    t.decode v = .ok d ↔ ∃ j y, Picks t.branches v j y ∧ d = .alternative j y := by
  have trial : t.decode v =
      Shape.decodeFirst v 0 [] (t.branches.map fun b => (b.name, b.decode)) := by
    cases t with
    | leaf | list => cases hb
    | either | either3 => rfl
  rw [trial, decodeFirst_eq_ok_iff]
  simp only [Nat.zero_add]

/-- Where an alternative accepts a tree, the first that does is at its place or before it. -/
theorem exists_picks (hb : bs[i]? = some b) (hv : b.Accepts v) :
    ∃ j y, j ≤ i ∧ Picks bs v j y := by
  induction bs generalizing i with
  | nil => cases hb
  | cons c bs ih =>
    by_cases hc : c.Accepts v
    · obtain ⟨y, hy⟩ := hc
      exact ⟨0, y, Nat.zero_le i, picks_zero.mpr hy⟩
    · cases i with
      | zero =>
        have hcb : c = b := Option.some.inj hb
        exact absurd (hcb ▸ hv) hc
      | succ i =>
        obtain ⟨j, y, hj, hy⟩ := ih hb
        exact ⟨j + 1, y, Nat.succ_le_succ hj, picks_succ.mpr ⟨hc, hy⟩⟩

theorem exists_list_of_resolves (h : Resolves t (.list xs) z) : ∃ ys, z = .list ys := by
  cases h with
  | leaf => exact ⟨xs, rfl⟩
  | nil => exact ⟨[], rfl⟩
  | cons => exact ⟨_, rfl⟩

theorem exists_resolves (h : t.Holds x) :
    ∃ v y, x.toJson = .ok v ∧ t.decode v = .ok y ∧ t.Resolves x y := by
  induction h with
  | @leaf n read x v written read_eq => exact ⟨v, x, written, read_eq, .leaf⟩
  | nil => exact ⟨.arr [], .list [], rfl, rfl, .nil⟩
  | cons head tail ihx ihxs =>
    obtain ⟨v, y, hv, hy, hxy⟩ := ihx
    obtain ⟨w, z, hw, hz, hxsz⟩ := ihxs
    obtain ⟨vs, rfl⟩ := exists_arr_of_toJson hw
    obtain ⟨ys, rfl⟩ := exists_list_of_resolves hxsz
    have written := toJson_list_cons.mpr ⟨v, vs, hv, hw, rfl⟩
    have read := decode_list_cons.mpr ⟨y, ys, hy, hz, rfl⟩
    exact ⟨.arr (v :: vs), .list (y :: ys), written, read, .cons hxy hxsz⟩
  | union branch value ih =>
    obtain ⟨v, y, hv, hy, hxy⟩ := ih
    obtain ⟨j, z, hji, hz⟩ := exists_picks branch ⟨y, hy⟩
    refine ⟨v, .alternative j z, hv, (decode_union branch).mpr ⟨j, z, hz, rfl⟩, ?_⟩
    obtain ⟨c, hc, hcz⟩ := hz.accepted
    -- the first alternative that accepts is the one that was written, or it comes before that
    obtain rfl | hlt := Nat.eq_or_lt_of_le hji
    · obtain rfl := Option.some.inj (branch.symm.trans hc)
      obtain rfl := Except.ok.inj (hy.symm.trans hcz)
      exact .kept branch hv hz.first hxy
    · exact .captured hv hlt hc hz.first hcz

/-- What a value turns into is what is read, so it is one value only. -/
theorem decode_of_resolves (h : t.Resolves x y) (hx : t.Holds x) (hv : x.toJson = .ok v) :
    t.decode v = .ok y := by
  induction h generalizing v with
  | leaf =>
    cases hx with
    | leaf written read_eq =>
      obtain rfl := Except.ok.inj (hv.symm.trans written)
      exact read_eq
    | union branch => cases branch
  | nil =>
    obtain rfl := Except.ok.inj hv
    exact decode_list_nil
  | cons head tail ihx ihxs =>
    obtain ⟨w, ws, hw, hws, rfl⟩ := toJson_list_cons.mp hv
    cases hx with
    | cons hx hxs => exact decode_list_cons.mpr ⟨_, _, ihx hx hw, ihxs hxs hws, rfl⟩
  | @kept t b i x y w branch written first value ih =>
    cases hx with
    | leaf => cases branch
    | union branch' hx =>
      obtain rfl := Option.some.inj (branch.symm.trans branch')
      obtain rfl := Except.ok.inj (hv.symm.trans written)
      have picked : Picks t.branches v i y := ⟨⟨b, branch, ih hx hv⟩, first⟩
      exact (decode_union branch).mpr ⟨i, y, picked, rfl⟩
  | @captured t b i j x y w written earlier branch first accepted =>
    obtain rfl := Except.ok.inj (hv.symm.trans written)
    have picked : Picks t.branches v j y := ⟨⟨b, branch, accepted⟩, first⟩
    exact (decode_union branch).mpr ⟨j, y, picked, rfl⟩

theorem eq_of_unshadowed (hx : t.Unshadowed x) (h : t.Resolves x y) : y = x := by
  induction hx generalizing y with
  | leaf =>
    cases h with
    | leaf => rfl
    | kept branch | captured _ _ branch => cases branch
  | nil =>
    cases h
    rfl
  | cons head tail ihx ihxs =>
    cases h with
    | cons hx hxs => rw [ihx hx, Datum.list.inj (ihxs hxs)]
  | union branch written first value ih =>
    cases h with
    | leaf => rfl
    | kept branch' _ _ hx =>
      obtain rfl := Option.some.inj (branch.symm.trans branch')
      rw [ih hx]
    | captured written' earlier branch' _ accepted =>
      obtain rfl := Except.ok.inj (written.symm.trans written')
      exact absurd ⟨_, accepted⟩ (first _ _ earlier branch')

/-- Equality leaves the sign of a zero aside, but not the alternative of a union. -/
theorem unshadowed_of_beq (h : t.Resolves x y) (hxy : (y == x) = true) : t.Unshadowed x := by
  induction h with
  | leaf => exact .leaf
  | nil => exact .nil
  | cons head tail ihx ihxs =>
    have both := Bool.and_eq_true_iff.mp hxy
    exact .cons (ihx both.1) (ihxs both.2)
  | kept branch written first value ih =>
    have both := Bool.and_eq_true_iff.mp hxy
    exact .union branch written first (ih both.2)
  | captured written earlier =>
    have both := Bool.and_eq_true_iff.mp hxy
    exact absurd (beq_iff_eq.mp both.1) (Nat.ne_of_lt earlier)

/-- Of every union of lists and unions: what is written is read, as the one value that the earliest
accepting alternatives make of it, and this is the value itself, up to the sign of a zero or not,
exactly if no alternative before one that is taken accepts what is written there. The items of a
list are read each on its own. -/
theorem comes_back_iff_unshadowed (t : UnionType) :
    (∀ x, t.Holds x → ∃ v y, x.toJson = .ok v ∧ t.decode v = .ok y ∧
      (∀ z, t.Resolves x z ↔ z = y) ∧ (y = x ↔ t.Unshadowed x) ∧
      ((y == x) = true ↔ t.Unshadowed x)) ∧
    (∀ vs ys, (list t).decode (.arr vs) = .ok (.list ys) ↔
      List.Forall₂ (fun v y => t.decode v = .ok y) vs ys) ∧
    ∀ s : Shape, (ofShape s).decode = s.decode := by
  refine ⟨fun x hx => ?_, fun vs ys => decode_list_iff, decode_ofShape⟩
  obtain ⟨v, y, hv, hy, hxy⟩ := exists_resolves hx
  refine ⟨v, y, hv, hy, fun z => ⟨fun hz => ?_, fun hz => hz ▸ hxy⟩, ⟨fun h => ?_, fun h => ?_⟩,
    unshadowed_of_beq hxy, fun h => ?_⟩
  · exact Except.ok.inj ((decode_of_resolves hz hx hv).symm.trans hy)
  · exact unshadowed_of_beq hxy (h ▸ BEq.rfl)
  · exact eq_of_unshadowed h hxy
  · exact eq_of_unshadowed h hxy ▸ BEq.rfl

/-- A text with its kind, or texts; a list of two texts is also the fields of the first. -/
def content : UnionType :=
  either
    (ofShape (.record ⟨"", "Content"⟩ [("kind", .required, .text), ("value", .required, .text)]))
    (list (ofShape .text))

/-- The texts of the first item come back as a record, the texts of the second do not. -/
theorem comes_back_iff_unshadowed_content :
    let x := Datum.list
      [.alternative 1 (.list [.text "a", .text "b"]), .alternative 1 (.list [.text "c"])]
    let y := Datum.list
      [.alternative 0 (.record [("kind", .text "a"), ("value", .text "b")]),
        .alternative 1 (.list [.text "c"])]
    (list content).Holds x ∧ (list content).Resolves x y ∧ ¬ (list content).Unshadowed x := by
  intro x y
  have one (s : String) : (ofShape .text).Holds (.text s) := .leaf rfl rfl
  have texts : (list content).Holds x :=
    .cons (.union rfl (.cons (one "a") (.cons (one "b") .nil)))
      (.cons (.union rfl (.cons (one "c") .nil)) .nil)
  obtain ⟨v, z, hv, hz, hresolves, hback, -⟩ := (comes_back_iff_unshadowed (list content)).1 x texts
  have written : x.toJson = .ok (.arr [.arr [.str "a", .str "b"], .arr [.str "c"]]) := rfl
  have read : (list content).decode (.arr [.arr [.str "a", .str "b"], .arr [.str "c"]]) =
      .ok y := rfl
  obtain rfl := Except.ok.inj (written.symm.trans hv)
  obtain rfl := Except.ok.inj (read.symm.trans hz)
  refine ⟨texts, (hresolves y).mpr rfl, fun h => ?_⟩
  have items := List.cons.inj (Datum.list.inj (hback.mpr h))
  exact Nat.zero_ne_one (Datum.alternative.inj items.1).1

end UnionType
end RpcPeer
