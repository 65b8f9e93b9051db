import ValueAlgebra.Proofs.Writer.Incremental
import ValueAlgebra.Proofs.Writer.Rows

/-!
# Writers of declared types

A writer whose types are declared takes an item exactly if its types fit, and keeps the declared
types. So a value is built of a list of items exactly if each of them fits, and then it is the same
as if nothing had been checked: `Buffer.build_eq_ok_iff` says this for every sort of buffer, given
what one item does to it.

## Main definitions

- `ListBuffer.declared` and its companions: the buffer of declared types that holds given items
-/

namespace ValueAlgebra

section

variable {β ι : Type} [Buffer β ι] {m : Manager} {holding : List ι → β} {p : ι → Prop}

/-- A buffer that takes the items with `p` takes a list of them. -/
theorem Buffer.foldlM_push_eq_ok_iff
    (hpush : ∀ xs x b, push m (holding xs) x = .ok b ↔ p x ∧ b = holding (xs ++ [x]))
    (xs ys : List ι) (b : β) : ys.foldlM (push m) (holding xs) = .ok b ↔
      (∀ y ∈ ys, p y) ∧ b = holding (xs ++ ys) := by
  induction ys generalizing xs with
  | nil =>
    rw [List.append_nil, List.foldlM_nil, pure_eq_ok, eq_comm]
    exact (and_iff_right nofun).symm
  | cons y ys ih =>
    rw [List.foldlM_cons, bind_eq_ok, List.forall_mem_cons]
    constructor
    · rintro ⟨b', hy, hys⟩
      obtain ⟨hp, rfl⟩ := (hpush xs y b').1 hy
      obtain ⟨hps, rfl⟩ := (ih (xs ++ [y])).1 hys
      exact ⟨⟨hp, hps⟩, by rw [List.append_assoc, List.singleton_append]⟩
    · rintro ⟨⟨hp, hps⟩, rfl⟩
      refine ⟨holding (xs ++ [y]), (hpush xs y _).2 ⟨hp, rfl⟩, (ih (xs ++ [y])).2 ⟨hps, ?_⟩⟩
      rw [List.append_assoc, List.singleton_append]

/-- What it then makes of them is known if it is for every list. -/
theorem Buffer.build_eq_ok_iff {c : Cell} {value : List ι → Value}
    (hpush : ∀ xs x b, push m (holding xs) x = .ok b ↔ p x ∧ b = holding (xs ++ [x]))
    (hfinish : ∀ xs, finish m c (holding xs) = .ok (value xs)) (xs : List ι) (v : Value) :
    build m c (holding []) xs = .ok v ↔ (∀ x ∈ xs, p x) ∧ v = value xs := by
  rw [build, bind_eq_ok]
  constructor
  · rintro ⟨b, hb, hv⟩
    obtain ⟨hp, rfl⟩ := (foldlM_push_eq_ok_iff hpush [] xs b).1 hb
    rw [List.nil_append, hfinish] at hv
    exact ⟨hp, (Except.ok.inj hv).symm⟩
  · rintro ⟨hp, rfl⟩
    exact ⟨holding xs, (foldlM_push_eq_ok_iff hpush [] xs _).2 ⟨hp, rfl⟩, hfinish xs⟩

end

variable {m : Manager} {e k x : Ty} {c : Cell} {v : Value}

theorem ElementType.accept_declared_eq_ok_iff {t : Ty} {elem : ElementType} :
    (ElementType.declared e).accept m t = .ok elem ↔
      t.isSubtypeOf e = true ∧ elem = .declared e := by
  by_cases ht : t.isSubtypeOf e = true
  · rw [accept, if_pos ht]
    exact ⟨fun h => ⟨ht, (Except.ok.inj h).symm⟩, fun h => congrArg _ h.2.symm⟩
  · rw [accept, if_neg ht]
    refine iff_of_false (fun h => ?_) fun h => ht h.1
    cases h

/-! ### Buffers of declared types -/

def ListBuffer.declared (e : Ty) (vs : List Value) : ListBuffer := ⟨.declared e, vs.toArray⟩

def SetBuffer.declared (e : Ty) (relation : Bool) (vs : List Value) : SetBuffer :=
  ⟨.declared e, relation, .ofValues vs⟩

def MapBuffer.declared (k x : Ty) (es : List (Value × Value)) : MapBuffer :=
  ⟨.declared k, .declared x, .ofEntries es⟩

theorem ListBuffer.push_declared (vs : List Value) (v : Value) (b : ListBuffer) :
    Buffer.push m (declared e vs) v = .ok b ↔
      v.ty.isSubtypeOf e = true ∧ b = declared e (vs ++ [v]) := by
  simp only [Buffer.push, declared, bind_eq_ok, ElementType.accept_declared_eq_ok_iff, pure_eq_ok,
    List.push_toArray]
  constructor
  · rintro ⟨_, ⟨hv, rfl⟩, rfl⟩
    exact ⟨hv, rfl⟩
  · rintro ⟨hv, rfl⟩
    exact ⟨_, ⟨hv, rfl⟩, rfl⟩

/-- A relation asks for tuples as well. -/
theorem SetBuffer.push_declared (relation : Bool) (vs : List Value) (v : Value) (b : SetBuffer) :
    Buffer.push m (declared e relation vs) v = .ok b ↔
      ((relation = true → v.ty.isTuple = true) ∧ v.ty.isSubtypeOf e = true) ∧
        b = declared e relation (vs ++ [v]) := by
  by_cases hrefused : (relation && !v.ty.isTuple) = true
  · have hv : relation = true ∧ ¬v.ty.isTuple = true := by simpa using hrefused
    have hpush : Buffer.push m (declared e relation vs) v = .error (.notATuple v.ty) :=
      if_pos hrefused
    rw [hpush]
    exact ⟨nofun, fun h => absurd (h.1.1 hv.1) hv.2⟩
  · have hv : relation = true → v.ty.isTuple = true := by simpa using hrefused
    have hpush : Buffer.push m (declared e relation vs) v =
        ((ElementType.declared e).accept m v.ty >>= fun elem =>
          pure ⟨elem, relation, (Table.ofValues vs).put v ()⟩) := if_neg hrefused
    rw [hpush, declared, Table.ofValues_append_singleton]
    simp only [bind_eq_ok, ElementType.accept_declared_eq_ok_iff, pure_eq_ok]
    constructor
    · rintro ⟨_, ⟨hbelow, rfl⟩, rfl⟩
      exact ⟨⟨hv, hbelow⟩, rfl⟩
    · rintro ⟨⟨-, hbelow⟩, rfl⟩
      exact ⟨_, ⟨hbelow, rfl⟩, rfl⟩

theorem MapBuffer.push_declared (es : List (Value × Value)) (e : Value × Value) (b : MapBuffer) :
    Buffer.push m (declared k x es) e = .ok b ↔
      (e.1.ty.isSubtypeOf k = true ∧ e.2.ty.isSubtypeOf x = true) ∧
        b = declared k x (es ++ [e]) := by
  simp only [Buffer.push, declared, bind_eq_ok, ElementType.accept_declared_eq_ok_iff, pure_eq_ok,
    Table.ofEntries_append_singleton]
  constructor
  · rintro ⟨_, ⟨hk, rfl⟩, _, ⟨hx, rfl⟩, rfl⟩
    exact ⟨⟨hk, hx⟩, rfl⟩
  · rintro ⟨⟨hk, hx⟩, rfl⟩
    exact ⟨_, ⟨hk, rfl⟩, _, ⟨hx, rfl⟩, rfl⟩

/-! ### Values of declared types -/

theorem ListBuffer.build_eq_ok_iff {vs : List Value} :
    Buffer.build m c (of e) vs = .ok v ↔
      (∀ w ∈ vs, w.ty.isSubtypeOf e = true) ∧ v = .list (m.list e) c vs :=
  Buffer.build_eq_ok_iff push_declared (fun _ => rfl) _ v

theorem SetBuffer.build_eq_ok_iff {vs : List Value} :
    Buffer.build m c (of e false) vs = .ok v ↔
      (∀ w ∈ vs, w.ty.isSubtypeOf e = true) ∧ v = .set (m.set e) c (.ofValues vs) := by
  have hfinish (ws : List Value) : Buffer.finish m c (declared e false ws) =
      .ok (.set (m.set e) c (.ofValues ws)) := rfl
  have hbuild := Buffer.build_eq_ok_iff (push_declared false) hfinish vs v
  refine hbuild.trans (and_congr_left fun _ => forall₂_congr fun w _ => ?_)
  exact and_iff_right nofun

/-- A relation takes what is below its row type, which are tuples if they are values. -/
theorem SetBuffer.build_relation_eq_ok_iff {vs : List Value} (he : e.isTuple = true)
    (hvs : ∀ w ∈ vs, w.ty.kind ≠ .void) : Buffer.build m c (of e true) vs = .ok v ↔
      (∀ w ∈ vs, w.ty.isSubtypeOf e = true) ∧ v = .set (m.set e) c (.ofValues vs) := by
  have hfinish (ws : List Value) : Buffer.finish m c (declared e true ws) =
      .ok (.set (m.set e) c (.ofValues ws)) := by
    show (Build.relationType m e >>= _) = _
    rw [Session.relationType_eq_setOf he]
    rfl
  have hbuild := Buffer.build_eq_ok_iff (push_declared true) hfinish vs v
  refine hbuild.trans (and_congr_left fun _ => forall₂_congr fun w hw => ?_)
  exact and_iff_right_of_imp fun hbelow _ => Ty.isTuple_of_isSubtypeOf he hbelow (hvs w hw)

theorem MapBuffer.build_eq_ok_iff {es : List (Value × Value)} :
    Buffer.build m c (of k x) es = .ok v ↔
      (∀ e ∈ es, e.1.ty.isSubtypeOf k = true ∧ e.2.ty.isSubtypeOf x = true) ∧
        v = .map (m.map k x) c (.ofEntries es) :=
  Buffer.build_eq_ok_iff push_declared (fun _ => rfl) _ v

end ValueAlgebra
