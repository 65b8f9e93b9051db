import ValueAlgebra.Proofs.Writer.Incremental
import ValueAlgebra.Proofs.Writer.Rows
import ValueAlgebra.Proofs.Session.Typed

/-!
# Extending sets and relations

A set or relation that is reopened and extended with more elements comes out as if it had been built
of all of them at once. There is one exception by intention: a set of tuples is a relation and stays
one when it is reopened, so that nothing else can be added to it, tuples of another arity included.

The empty relation makes a difference as well. It ranges over empty tuples, and reopened it goes on
from there, so that it can only be extended with these.

## Main definitions

- `Value.ExtendsTo`: extending a value leads to one like another, of the same type
-/

namespace ValueAlgebra

namespace Table

theorem indexed_ofValues (vs : List Value) : (ofValues vs).Indexed Value.hash := by
  suffices h : ∀ (vs : List Value) (t : Table Value Unit), t.Indexed Value.hash →
      (vs.foldl (fun t v => t.put v ()) t).Indexed Value.hash from h vs ∅ (indexed_empty _)
  intro vs
  induction vs with
  | nil => exact fun t ht => ht
  | cons v vs ih => exact fun t ht => ih _ (ht.insert v ())

end Table

namespace Value

theorem elemsIn_of_contains {shortcut : Value → Value → Bool} {es : List (Value × Unit)}
    {t : Table Value Unit} (h : ∀ e ∈ es, t.contains e.1.hash (e.1.eqWith shortcut ·) = true) :
    elemsIn shortcut es t = true := by
  induction es with
  | nil => rw [elemsIn]
  | cons e es ih =>
    obtain ⟨he, hes⟩ := List.forall_mem_cons.1 h
    rw [elemsIn, he, ih hes]
    rfl

/-- Sets with the same elements are equal, wherever they are stored. -/
theorem set_beq_set {t u : Ty} {c d : Cell} {es : Table Value Unit} (h : es.Indexed Value.hash) :
    (set t c es == set u d es) = true := by
  have hcontains : ∀ e ∈ es.toList, es.contains e.1.hash (e.1.eqWith isIdenticalTo ·) = true :=
    fun e he => h.contains_iff.2 ⟨e, he, rfl, eqWith_self e.1⟩
  have helems := elemsIn_of_contains hcontains
  show (set t c es).eqWith isIdenticalTo (set u d es) = true
  obtain ⟨⟨es⟩, index⟩ := es
  rw [eqWith, Bool.or_eq_true, Bool.and_eq_true, beq_iff_eq]
  exact .inr ⟨rfl, helems⟩

/-- Reopened and extended, the value becomes one equal to `w` and of the same type. -/
def ExtendsTo (m : Manager) (v : Value) (ys : List Value) (c : Cell) (w : Value) : Prop :=
  ∃ writer w', v.toSetWriter? m = some writer ∧
    returned (Writer.collect [.insertAll ys] c) writer = .ok w' ∧ (w' == w) = true ∧ w'.ty = w.ty

end Value

namespace Session

variable {s : Session} {m : Manager} {vs xs ys : List Value} {v : Value}

/-! ### Sets of tuples -/

theorem kind_lubOf_ne_void (hs : s.TypedValues) (h : ∀ v ∈ vs, s.Has v) (hne : vs ≠ []) :
    (m.lubOf (vs.map Value.ty)).kind ≠ .void := by
  obtain ⟨v, hv⟩ := List.exists_mem_of_ne_nil vs hne
  intro hvoid
  have hbelow := isSubtypeOf_lubOf_types (m := m) hs h v hv
  cases ((hs v (h v hv)).1.not_isSubtypeOf_void hvoid).symm.trans hbelow

theorem isRelation_setOf (m : Manager) (e : Ty) : (m.set e).isRelation = e.isTuple := by
  unfold Manager.set
  split
  · next h => exact h.symm
  · next h => exact (Bool.eq_false_iff.2 h).symm

theorem isTuple_of_mem (hs : s.TypedValues) (h : ∀ v ∈ vs, s.Has v)
    (ht : (m.lubOf (vs.map Value.ty)).isTuple = true) : ∀ v ∈ vs, v.ty.isTuple = true :=
  fun v hv => Ty.isTuple_of_isSubtypeOf ht (isSubtypeOf_lubOf_types hs h v hv)
    (hs.kind_ty_ne_void (h v hv))

theorem lubOf_isSubtypeOf_append (hs : s.TypedValues) (h : ∀ v ∈ xs ++ ys, s.Has v) :
    (m.lubOf (xs.map Value.ty)).isSubtypeOf (m.lubOf ((xs ++ ys).map Value.ty)) = true := by
  have hxs : ∀ v ∈ xs, s.Has v := fun v hv => h v (List.mem_append_left ys hv)
  refine Manager.lubOf_isSubtypeOf (wellFormed_types hs hxs) (List.forall_mem_map.2 fun v hv => ?_)
  exact isSubtypeOf_lubOf_types hs h v (List.mem_append_left ys hv)

/-- Some values make a relation exactly if they make a set of tuples, and then it is this set. -/
theorem relation_eq_ok_iff (hs : s.TypedValues) (h : ∀ v ∈ vs, s.Has v) (hne : vs ≠ []) {c : Cell}
    {r : Value} : Build.relation m c vs = .ok r ↔
      (m.lubOf (vs.map Value.ty)).isTuple = true ∧ r = Build.set m c vs := by
  have hvoid := kind_lubOf_ne_void (m := m) hs h hne
  constructor
  · intro hr
    unfold Build.relation at hr
    split at hr
    · cases hr
    · obtain ⟨t, ht, hr⟩ := bind_eq_ok.1 hr
      rw [Build.relationType, if_neg hvoid] at ht
      obtain ⟨htuple, rfl⟩ := Ty.relationOver_eq_ok.1 ht
      refine ⟨htuple, ?_⟩
      rw [← pure_eq_ok.1 hr, Build.set, Manager.set, if_pos htuple]
  · rintro ⟨htuple, rfl⟩
    have hall : vs.find? (!·.ty.isTuple) = none :=
      List.find?_eq_none.2 fun v hv => by simp [isTuple_of_mem hs h htuple v hv]
    rw [Build.relation, hall, relationType_eq_setOf htuple]
    rfl

/-! ### Buffers of sets and relations -/

theorem build_set (c : Cell) (xs ys : List Value) :
    Buffer.build m c (SetBuffer.holding m false xs) ys = .ok (Build.set m c (xs ++ ys)) := by
  rw [Buffer.build, Buffer.foldlM_push fun vs v _ => SetBuffer.push_holding_set vs v]
  rfl

/-- A relation takes tuples, and it is finished if there is a tuple type above all of them. -/
theorem build_rows (hys : ∀ y ∈ ys, y.ty.isTuple = true) (c : Cell) (xs : List Value) :
    Buffer.build m c (SetBuffer.holding m true xs) ys =
      Buffer.finish m c (SetBuffer.holding m true (xs ++ ys)) := by
  rw [Buffer.build, Buffer.foldlM_push fun vs y hy => SetBuffer.push_holding vs fun _ => hys y hy]
  rfl

theorem finish_rows (c : Cell) (h : (m.lubOf (vs.map Value.ty)).isTuple = true) :
    Buffer.finish m c (SetBuffer.holding m true vs) = .ok (Build.set m c vs) := by
  show (Build.relationType m (m.lubOf (vs.map Value.ty)) >>= _) = _
  rw [relationType_eq_setOf h]
  rfl

/-- Elements go in up to the first that is no tuple. -/
theorem foldlM_push_rows (m : Manager) (xs ys : List Value) :
    ys.foldlM (Buffer.push m) (SetBuffer.holding m true xs) =
      match ys.find? (!·.ty.isTuple) with
      | some y => .error (.notATuple y.ty)
      | none => .ok (SetBuffer.holding m true (xs ++ ys)) := by
  induction ys generalizing xs with
  | nil =>
    rw [List.append_nil]
    rfl
  | cons y ys ih =>
    rw [List.foldlM_cons]
    by_cases hy : y.ty.isTuple = true
    · have hrest := ih (xs ++ [y])
      rw [List.append_assoc, List.singleton_append] at hrest
      rw [SetBuffer.push_holding xs fun _ => hy, List.find?_cons_of_neg (by simp [hy])]
      exact hrest
    · have hrefused : Buffer.push m (SetBuffer.holding m true xs) y = .error (.notATuple y.ty) := by
        simp only [Buffer.push, SetBuffer.holding, hy]
        rfl
      rw [hrefused, List.find?_cons_of_pos (by simp [hy])]
      rfl

/-- Any other element is refused. -/
theorem foldlM_push_rows_eq_error (xs : List Value) (h : ∃ y ∈ ys, y.ty.isTuple = false) :
    ∃ t, ys.foldlM (Buffer.push m) (SetBuffer.holding m true xs) = .error (.notATuple t) := by
  obtain ⟨y, hy, hnot⟩ := h
  rw [foldlM_push_rows]
  cases hfind : ys.find? (!·.ty.isTuple) with
  | none => exact absurd (List.find?_eq_none.1 hfind y hy) (by simp [hnot])
  | some z => exact ⟨z.ty, rfl⟩

/-! ### Reopened values -/

theorem extendsTo_of_build {b : SetBuffer} (hv : v.toSetWriter? m = some (.ofBuffer m b))
    {c : Cell} (hb : Buffer.build m c b ys = .ok (Build.set m c vs)) (c' : Cell) :
    v.ExtendsTo m ys c (Build.set m c' vs) := by
  refine ⟨_, Build.set m c vs, hv, ?_, Value.set_beq_set (Table.indexed_ofValues vs), rfl⟩
  rw [Writer.returned_collect, List.flatMap_singleton, Writer.Feed.items, hb]
  rfl

/-- Tuples are extended with tuples of their arity. -/
theorem rows_extendsTo (hs : s.TypedValues) (h : ∀ v ∈ xs ++ ys, s.Has v) (c c₁ c₂ : Cell)
    (hx : (m.lubOf (xs.map Value.ty)).isTuple = true)
    (hxy : (m.lubOf ((xs ++ ys).map Value.ty)).isTuple = true) :
    (Build.set m c₁ xs).ExtendsTo m ys c₂ (Build.set m c (xs ++ ys)) := by
  have hys : ∀ y ∈ ys, y.ty.isTuple = true := fun y hy =>
    isTuple_of_mem hs h hxy y (List.mem_append_right xs hy)
  have hrel : (Build.set m c₁ xs).ty.isRelation = true := (isRelation_setOf m _).trans hx
  refine extendsTo_of_build (Assembly.toSetWriter?_set hrel) ?_ c
  rw [build_rows hys, finish_rows c₂ hxy]

theorem set_extendsTo (hs : s.TypedValues) (h : ∀ v ∈ xs ++ ys, s.Has v) (c c₁ c₂ : Cell)
    (hstays : (Build.set m c₁ xs).ty.isRelation = true →
      (Build.set m c (xs ++ ys)).ty.isRelation = true) :
    (Build.set m c₁ xs).ExtendsTo m ys c₂ (Build.set m c (xs ++ ys)) := by
  by_cases hrel : (Build.set m c₁ xs).ty.isRelation = true
  · exact rows_extendsTo hs h c c₁ c₂ ((isRelation_setOf m _).symm.trans hrel)
      ((isRelation_setOf m _).symm.trans (hstays hrel))
  · exact extendsTo_of_build (Assembly.toSetWriter?_set (Bool.eq_false_iff.2 hrel))
      (build_set c₂ xs ys) c

/-- A set of tuples that is to become another set refuses. -/
theorem set_not_extended (hs : s.TypedValues) (h : ∀ v ∈ xs ++ ys, s.Has v) (c c₁ c₂ : Cell)
    (hrel : (Build.set m c₁ xs).ty.isRelation = true)
    (hnot : (Build.set m c (xs ++ ys)).ty.isRelation = false) :
    ∃ writer t, (Build.set m c₁ xs).toSetWriter? m = some writer ∧
      returned (Writer.collect [.insertAll ys] c₂) writer = .error (.type (.notATuple t)) := by
  have hreturned : returned (Writer.collect [.insertAll ys] c₂)
      (.ofBuffer m (SetBuffer.holding m true xs)) =
      (Buffer.build m c₂ (SetBuffer.holding m true xs) ys).mapError .type := by
    rw [Writer.returned_collect, List.flatMap_singleton, Writer.Feed.items]
  suffices hbuild : ∃ t, Buffer.build m c₂ (SetBuffer.holding m true xs) ys =
      .error (.notATuple t) by
    obtain ⟨t, ht⟩ := hbuild
    refine ⟨_, t, Assembly.toSetWriter?_set hrel, ?_⟩
    rw [hreturned, ht]
    rfl
  by_cases hys : ∀ y ∈ ys, y.ty.isTuple = true
  · -- All are tuples, but no tuple type is above them.
    have hne : xs ++ ys ≠ [] := by
      intro hnil
      obtain ⟨rfl, -⟩ := List.append_eq_nil_iff.1 hnil
      cases hrel
    have hrow := (isRelation_setOf m _).symm.trans hnot
    refine ⟨m.lubOf ((xs ++ ys).map Value.ty), ?_⟩
    rw [build_rows hys]
    show (Build.relationType m (m.lubOf ((xs ++ ys).map Value.ty)) >>= _) = _
    rw [relationType_eq_error (kind_lubOf_ne_void hs h hne) hrow]
    rfl
  · have hbad : ∃ y ∈ ys, y.ty.isTuple = false := by simpa using hys
    obtain ⟨t, ht⟩ := foldlM_push_rows_eq_error (m := m) xs hbad
    refine ⟨t, ?_⟩
    rw [Buffer.build, ht]
    rfl

theorem relation_extendsTo (hs : s.TypedValues) (h : ∀ v ∈ xs ++ ys, s.Has v) (hne : xs ≠ [])
    {c : Cell} {r : Value} (hr : Build.relation m c (xs ++ ys) = .ok r) (c₁ c₂ : Cell) :
    ∃ v, Build.relation m c₁ xs = .ok v ∧ v.ExtendsTo m ys c₂ r := by
  have hxs : ∀ v ∈ xs, s.Has v := fun v hv => h v (List.mem_append_left ys hv)
  obtain ⟨hxy, rfl⟩ := (relation_eq_ok_iff hs h (by simp [hne])).1 hr
  have hx := Ty.isTuple_of_isSubtypeOf hxy (lubOf_isSubtypeOf_append hs h)
    (kind_lubOf_ne_void hs hxs hne)
  exact ⟨_, (relation_eq_ok_iff hs hxs hne).2 ⟨hx, rfl⟩, rows_extendsTo hs h c c₁ c₂ hx hxy⟩

/-- A tuple without children has a type that the type of the empty tuple is below. -/
theorem unit_isSubtypeOf (hv : v.WellTyped) (htuple : v.ty.isTuple = true)
    (hnone : v.children? = some []) : (m.tuple []).isSubtypeOf v.ty = true := by
  rw [Ty.isTuple, hv.kind_ty, beq_iff_eq] at htuple
  cases v with
  | tuple t c vs =>
    obtain ⟨o, fs, hfs, hfits⟩ := hv
    obtain rfl := Option.some.inj hnone
    cases hfits
    rw [Value.ty, Ty.isSubtypeOf, hfs]
    simp [Manager.tuple, Manager.tupleOfFields, Ty.isBelow, Ty.fieldsBelow]
  | set =>
    cases hnone
  | _ => cases htuple

/-- The first empty tuple that is added to the empty relation settles the row type, as it does when
nothing was there. -/
theorem push_unit (hv : v.WellTyped) (htuple : v.ty.isTuple = true)
    (hnone : v.children? = some []) :
    Buffer.push m (⟨.inferred (m.tuple []), true, ∅⟩ : SetBuffer) v =
      .ok (SetBuffer.holding m true [v]) := by
  have hfirst : (m.tuple []).lub m v.ty = v.ty := by
    rw [Ty.lub, if_pos (unit_isSubtypeOf hv htuple hnone)]
  have hvoid : m.lubOf [v.ty] = v.ty := by
    show m.void.lub m v.ty = v.ty
    rw [Ty.lub, if_pos (Ty.void_isSubtypeOf v.ty)]
  simp only [Buffer.push, htuple, ElementType.accept, hfirst, SetBuffer.holding, List.map_cons,
    List.map_nil, hvoid]
  rfl

/-- The empty relation is extended with empty tuples. -/
theorem emptyRelation_extendsTo (hs : s.TypedValues) (h : ∀ v ∈ ys, s.Has v)
    (hunit : ∀ y ∈ ys, y.children? = some []) {c : Cell} {r : Value}
    (hr : Build.relation m c ys = .ok r) (c₁ c₂ : Cell) :
    ∃ v, Build.relation m c₁ [] = .ok v ∧ v.ExtendsTo m ys c₂ r := by
  refine ⟨.set (m.relation []) c₁ ∅, rfl, ?_⟩
  cases ys with
  | nil =>
    obtain rfl := Except.ok.inj hr
    exact ⟨_, .set (m.relation []) c₂ ∅, rfl, rfl, Value.set_beq_set (Table.indexed_empty _), rfl⟩
  | cons y ys =>
    obtain ⟨htuple, rfl⟩ := (relation_eq_ok_iff hs h (List.cons_ne_nil y ys)).1 hr
    obtain ⟨hy, hys⟩ := List.forall_mem_cons.1 (isTuple_of_mem hs h htuple)
    have hpush := push_unit (m := m) (hs y (h y List.mem_cons_self)).1 hy
      (hunit y List.mem_cons_self)
    refine extendsTo_of_build (b := ⟨.inferred (m.tuple []), true, ∅⟩) rfl ?_ c
    rw [Buffer.build, List.foldlM_cons, hpush]
    exact (build_rows hys c₂ [y]).trans (finish_rows c₂ htuple)

/-- Reopening and extending agrees with building at once: for relations, unless an empty one is
extended with tuples that are not empty, and for sets, unless a set of tuples is to become another
set, which it refuses. -/
theorem Reachable.reopened_extendsTo (hs : s.Reachable) (hxs : ∀ x ∈ xs, s.Has x)
    (hys : ∀ y ∈ ys, s.Has y) (m : Manager) (c c₁ c₂ : Cell) :
    (∀ r, Build.relation m c (xs ++ ys) = .ok r → (xs = [] → ∀ y ∈ ys, y.children? = some []) →
      ∃ v, Build.relation m c₁ xs = .ok v ∧ v.ExtendsTo m ys c₂ r) ∧
    (((Build.set m c₁ xs).ty.isRelation = true →
        (Build.set m c (xs ++ ys)).ty.isRelation = true) →
      (Build.set m c₁ xs).ExtendsTo m ys c₂ (Build.set m c (xs ++ ys))) ∧
    ((Build.set m c₁ xs).ty.isRelation = true →
      (Build.set m c (xs ++ ys)).ty.isRelation = false →
      ∃ writer t, (Build.set m c₁ xs).toSetWriter? m = some writer ∧
        returned (Writer.collect [.insertAll ys] c₂) writer = .error (.type (.notATuple t))) := by
  have htyped := hs.typed.values
  have h : ∀ v ∈ xs ++ ys, s.Has v := fun v hv => (List.mem_append.1 hv).elim (hxs v) (hys v)
  refine ⟨fun r hr hunit => ?_, set_extendsTo htyped h c c₁ c₂, set_not_extended htyped h c c₁ c₂⟩
  by_cases hne : xs = []
  · subst hne
    exact emptyRelation_extendsTo htyped hys (hunit rfl) hr c₁ c₂
  · exact relation_extendsTo htyped h hne hr c₁ c₂

namespace OneRow

/-- A tuple whose child is a tuple. -/
def nested : Value := Build.tuple manager 3 [row]

theorem reachable_nested : (session.add nested).Reachable :=
  .make reachable_session (.tuple manager (has_of_subset (by simp [session, add])))

theorem relation_nested : Build.relation manager 4 [row, nested] =
    .ok (Build.set manager 4 [row, nested]) := by
  have hheld : ∀ v ∈ [row, nested], (session.add nested).Has v :=
    has_of_subset (by simp [session, add])
  have htuple : (manager.lubOf ([row, nested].map Value.ty)).isTuple = true := by decide +kernel
  exact (relation_eq_ok_iff reachable_nested.typed.values hheld (List.cons_ne_nil _ _)).2
    ⟨htuple, rfl⟩

/-- With a number the relation would be a set of anything. -/
theorem isRelation_number : (Build.set manager 4 [row, number]).ty.isRelation = false := by
  decide +kernel

end OneRow

open OneRow in
/-- The relation of `<1>` is extended with `<<1>>`, which widens its row type, but not with `1`. -/
theorem rows_extendsTo_nested :
    (∃ v, Build.relation manager 5 [row] = .ok v ∧
      v.ExtendsTo manager [nested] 6 (Build.set manager 4 [row, nested])) ∧
    ∃ writer t, rows.toSetWriter? manager = some writer ∧
      returned (Writer.collect [.insertAll [number]] 6) writer = .error (.type (.notATuple t)) := by
  have hrow : ∀ v ∈ [row], (session.add nested).Has v := has_of_subset (by simp [session, add])
  have hnested : ∀ v ∈ [nested], (session.add nested).Has v :=
    has_of_subset (by simp [session, add])
  have hnumber : ∀ v ∈ [number], (session.add nested).Has v :=
    has_of_subset (by simp [session, add])
  obtain ⟨hextends, -, -⟩ := reachable_nested.reopened_extendsTo hrow hnested manager 4 5 6
  obtain ⟨-, -, hrefuses⟩ := reachable_nested.reopened_extendsTo hrow hnumber manager 4 2 6
  have hne : [row] ≠ [] := List.cons_ne_nil row []
  exact ⟨hextends _ relation_nested fun h => absurd h hne,
    hrefuses isRelation_rows isRelation_number⟩

open OneRow in
/-- Above the empty tuple and `<1>` there is no tuple type. -/
theorem build_emptyRelation_row_eq_error : ∃ e, Buffer.build manager 6
    (⟨.inferred (manager.tuple []), true, ∅⟩ : SetBuffer) [row] = .error e := by
  have hvoid : ((manager.tuple []).lub manager row.ty).kind ≠ .void := by decide +kernel
  have hrow : ((manager.tuple []).lub manager row.ty).isTuple = false := by decide +kernel
  refine ⟨.notATuple ((manager.tuple []).lub manager row.ty), ?_⟩
  show (Build.relationType manager ((manager.tuple []).lub manager row.ty) >>= _) = _
  rw [relationType_eq_error hvoid hrow]
  rfl

open OneRow in
/-- The set of `<1>` cannot be extended with `1` as sets can, nor the empty relation with `<1>` as
relations can. -/
theorem not_extendsTo :
    ¬rows.ExtendsTo manager [number] 6 (Build.set manager 4 [row, number]) ∧
    ∃ r, Build.relation manager 4 [row] = .ok r ∧
      ¬∃ v, Build.relation manager 5 [] = .ok v ∧ v.ExtendsTo manager [row] 6 r := by
  have htyped := reachable_session.typed.values
  constructor
  · rintro ⟨writer, w', hwriter, hok, -⟩
    have hheld : ∀ v ∈ [row] ++ [number], session.Has v := has_of_subset (by simp [session, add])
    obtain ⟨writer', t, hwriter', herror⟩ :=
      set_not_extended htyped hheld 4 2 6 isRelation_rows isRelation_number
    obtain rfl := Option.some.inj (hwriter.symm.trans hwriter')
    cases hok.symm.trans herror
  · have hheld : ∀ v ∈ [row], session.Has v := has_of_subset (by simp [session, add])
    have hrow := (isRelation_setOf manager _).symm.trans isRelation_rows
    refine ⟨_, (relation_eq_ok_iff htyped hheld (List.cons_ne_nil _ _)).2 ⟨hrow, rfl⟩, ?_⟩
    rintro ⟨v, hv, writer, w', hwriter, hok, -⟩
    obtain rfl := Except.ok.inj hv
    obtain rfl := Option.some.inj hwriter
    obtain ⟨e, he⟩ := build_emptyRelation_row_eq_error
    have hbuild := (Writer.returned_collect _ _ _).symm.trans hok
    cases (congrArg (Except.mapError BuildError.type) he).symm.trans hbuild

end Session

end ValueAlgebra
