import ValueAlgebra.Proofs.Writer.Calls

/-!
# Values built at once and item by item

A tuple, list, set or map is the same value whether it is built at once or by a writer, new or
reopened, and in whatever calls the items come: the same type, the same parts in the same order. The
buffer of a writer that infers its types is at any time the one that holds the items so far,
`holding`, so that only one more item has to be looked at.

## Main definitions

- `ListBuffer.holding` and its companions: the buffer after given items
- `Assembly`: the ways to build a value of one sort
- `Assembly.Incremental`: they agree
-/

namespace ValueAlgebra

theorem Manager.lubOf_append_singleton (m : Manager) (types : List Ty) (t : Ty) :
    m.lubOf (types ++ [t]) = (m.lubOf types).lub m t :=
  List.foldl_append

namespace Table

theorem ofValues_append_singleton (vs : List Value) (v : Value) :
    ofValues (vs ++ [v]) = (ofValues vs).put v () :=
  List.foldl_append

theorem ofEntries_append_singleton (es : List (Value × Value)) (e : Value × Value) :
    ofEntries (es ++ [e]) = (ofEntries es).put e.1 e.2 :=
  List.foldl_append

end Table

/-! ### Buffers after given items -/

/-- A buffer that holds items takes others one by one. -/
theorem Buffer.foldlM_push {β ι : Type} [Buffer β ι] {m : Manager} {holding : List ι → β}
    {ys : List ι} (h : ∀ xs, ∀ y ∈ ys, push m (holding xs) y = .ok (holding (xs ++ [y])))
    (xs : List ι) : ys.foldlM (push m) (holding xs) = .ok (holding (xs ++ ys)) := by
  induction ys generalizing xs with
  | nil => rw [List.append_nil]; rfl
  | cons y ys ih =>
    have hy := h xs y List.mem_cons_self
    have ih := ih (fun xs z hz => h xs z (List.mem_cons_of_mem y hz)) (xs ++ [y])
    rw [List.foldlM_cons, hy]
    rwa [List.append_assoc] at ih

def TupleBuffer.holding (vs : List Value) : TupleBuffer := ⟨vs.toArray⟩

/-- The buffer of a list, its element type inferred from the elements. -/
def ListBuffer.holding (m : Manager) (vs : List Value) : ListBuffer :=
  ⟨.inferred (m.lubOf (vs.map Value.ty)), vs.toArray⟩

def SetBuffer.holding (m : Manager) (relation : Bool) (vs : List Value) : SetBuffer :=
  ⟨.inferred (m.lubOf (vs.map Value.ty)), relation, .ofValues vs⟩

def MapBuffer.holding (m : Manager) (es : List (Value × Value)) : MapBuffer :=
  ⟨.inferred (m.lubOf (es.map (·.1.ty))), .inferred (m.lubOf (es.map (·.2.ty))), .ofEntries es⟩

/-- A relation takes tuples only. -/
theorem SetBuffer.push_holding {m : Manager} {relation : Bool} (vs : List Value) {v : Value}
    (hv : relation = true → v.ty.isTuple = true) :
    Buffer.push m (holding m relation vs) v = .ok (holding m relation (vs ++ [v])) := by
  have hrefused : (relation && !v.ty.isTuple) = false := by
    cases relation with
    | false => rfl
    | true => rw [hv rfl]; rfl
  simp only [Buffer.push, holding, hrefused, ElementType.accept, List.map_append, List.map_cons,
    List.map_nil, Manager.lubOf_append_singleton, Table.ofValues_append_singleton]
  rfl

theorem SetBuffer.push_holding_set {m : Manager} (vs : List Value) (v : Value) :
    Buffer.push m (holding m false vs) v = .ok (holding m false (vs ++ [v])) :=
  push_holding vs fun h => nomatch h

theorem MapBuffer.push_holding {m : Manager} (es : List (Value × Value)) (e : Value × Value) :
    Buffer.push m (holding m es) e = .ok (holding m (es ++ [e])) := by
  simp only [Buffer.push, holding, ElementType.accept, List.map_append, List.map_cons,
    List.map_nil, Manager.lubOf_append_singleton, Table.ofEntries_append_singleton]
  rfl

theorem ListBuffer.push_holding {m : Manager} (vs : List Value) (v : Value) :
    Buffer.push m (holding m vs) v = .ok (holding m (vs ++ [v])) := by
  simp only [Buffer.push, holding, ElementType.accept, List.map_append, List.map_cons,
    List.map_nil, Manager.lubOf_append_singleton, List.push_toArray]
  rfl

theorem TupleBuffer.push_holding {m : Manager} (vs : List Value) (v : Value) :
    Buffer.push m (holding vs) v = .ok (holding (vs ++ [v])) := by
  simp only [Buffer.push, holding, List.push_toArray]

/-! ### The sorts -/

/-- The ways to build a value of one sort: at once, by a new writer that infers its types, and by a
writer that reopens another value. -/
structure Assembly (β ι : Type) where
  build : Manager → Cell → List ι → Value
  writer : Manager → Writer β
  reopen? : Manager → Value → Option (Writer β)

namespace Assembly

def tuple : Assembly TupleBuffer Value := ⟨Build.tuple, Writer.tuple, Value.toTupleWriter?⟩

def list : Assembly ListBuffer Value :=
  ⟨Build.list, fun m => Writer.list m none, Value.toListWriter?⟩

def set : Assembly SetBuffer Value := ⟨Build.set, fun m => Writer.set m none, Value.toSetWriter?⟩

def map : Assembly MapBuffer (Value × Value) :=
  ⟨Build.map, fun m => Writer.map m none none, Value.toMapWriter?⟩

variable {β ι : Type} [Buffer β ι] {a : Assembly β ι} {Reopens : Value → Prop}

/-- What a writer returns is what is built at once of all items, those of the value that it reopens
included, whatever calls bring the items. -/
structure Incremental (a : Assembly β ι) (Reopens : Value → Prop) : Prop where
  new : ∀ m cell (feeds : List (Writer.Feed ι)),
    returned (Writer.collect feeds cell) (a.writer m) =
      .ok (a.build m cell (feeds.flatMap Writer.Feed.items))
  reopened : ∀ m cell cell' xs (feeds : List (Writer.Feed ι)), Reopens (a.build m cell xs) →
    ∃ w, a.reopen? m (a.build m cell xs) = some w ∧ returned (Writer.collect feeds cell') w =
      .ok (a.build m cell' (xs ++ feeds.flatMap Writer.Feed.items))

/-- It is enough to know the buffer that holds given items. -/
theorem Incremental.of_holding {holding : Manager → List ι → β}
    (hpush : ∀ m xs x, Buffer.push m (holding m xs) x = .ok (holding m (xs ++ [x])))
    (hfinish : ∀ m cell xs, Buffer.finish m cell (holding m xs) = .ok (a.build m cell xs))
    (hwriter : ∀ m, a.writer m = .ofBuffer m (holding m []))
    (hreopen : ∀ m cell xs, Reopens (a.build m cell xs) →
      a.reopen? m (a.build m cell xs) = some (.ofBuffer m (holding m xs))) :
    a.Incremental Reopens := by
  have hcollect (m : Manager) (cell : Cell) (xs : List ι) (feeds : List (Writer.Feed ι)) :
      returned (Writer.collect feeds cell) (.ofBuffer m (holding m xs)) =
        .ok (a.build m cell (xs ++ feeds.flatMap Writer.Feed.items)) := by
    rw [Writer.returned_collect, Buffer.build, Buffer.foldlM_push fun xs y _ => hpush m xs y]
    show (Buffer.finish m cell (holding m _)).mapError _ = _
    rw [hfinish]
    rfl
  refine ⟨fun m cell feeds => ?_, fun m cell cell' xs feeds hxs => ⟨_, hreopen m cell xs hxs, ?_⟩⟩
  · rw [hwriter, hcollect, List.nil_append]
  · exact hcollect m cell' xs feeds

/-- A set stays a set unless it is of tuples. -/
theorem toSetWriter?_set {m : Manager} {cell : Cell} {vs : List Value} {relation : Bool}
    (h : (Build.set m cell vs).ty.isRelation = relation) : (Build.set m cell vs).toSetWriter? m =
      some (.ofBuffer m (SetBuffer.holding m relation vs)) := by
  have helem : (m.set (m.lubOf (vs.map Value.ty))).element? = some (m.lubOf (vs.map Value.ty)) := by
    unfold Manager.set
    split <;> rfl
  have hrelation : (m.set (m.lubOf (vs.map Value.ty))).isRelation = relation := h
  rw [Build.set, Value.toSetWriter?, helem, hrelation]
  rfl

/-- Tuples, lists, sets and maps come out the same in every way, but for sets that are reopened as
relations. -/
theorem incremental : tuple.Incremental (fun _ => True) ∧ list.Incremental (fun _ => True) ∧
    set.Incremental (fun v => v.ty.isRelation = false) ∧ map.Incremental (fun _ => True) := by
  refine ⟨?tuple, ?list, ?set, ?map⟩
  case tuple =>
    exact .of_holding (fun _ => TupleBuffer.push_holding) (fun _ _ _ => rfl) (fun _ => rfl)
      fun _ _ _ _ => rfl
  case list =>
    exact .of_holding (fun _ => ListBuffer.push_holding) (fun _ _ _ => rfl) (fun _ => rfl)
      fun _ _ _ _ => rfl
  case set =>
    exact .of_holding (fun _ => SetBuffer.push_holding_set) (fun _ _ _ => rfl) (fun _ => rfl)
      fun _ _ _ => toSetWriter?_set
  case map =>
    exact .of_holding (fun _ => MapBuffer.push_holding) (fun _ _ _ => rfl) (fun _ => rfl)
      fun _ _ _ _ => rfl

/-- A map that is given an entry by key and value, and then another under the same key. -/
example (m : Manager) (k v w : Value) :
    returned (Writer.collect [.put k v, .insertAll [(k, w)]] 0) (Writer.map m none none) =
      .ok (Build.map m 0 [(k, v), (k, w)]) :=
  rfl

end Assembly

end ValueAlgebra
