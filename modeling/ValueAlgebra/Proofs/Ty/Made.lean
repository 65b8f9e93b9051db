import ValueAlgebra.Ty.Manager

/-!
# Types that managers make

Types come from managers only, and a manager keeps sets of tuples apart from other sets and
constructors with data types. `Ty.Made` follows the functions of managers, `Ty.WellFormed` says
what holds of their results at every node, and `Ty.made_iff` that this is all.
-/

namespace ValueAlgebra

namespace Ty

/-- The types that managers make, also several managers together. -/
inductive Made : Ty → Prop
  | basic (m : Manager) (b : BasicTy) : Made (m.basic b)
  | tuple (m : Manager) {fields : List (Field Ty)} (h : ∀ f ∈ fields, Made f.ty) :
    Made (m.tupleOfFields fields)
  | list (m : Manager) {elem : Ty} (h : Made elem) : Made (m.list elem)
  | set (m : Manager) {elem : Ty} (h : Made elem) : Made (m.set elem)
  | relation (m : Manager) {row t : Ty} (h : Made row) (ht : m.relationOver row = .ok t) : Made t
  | map (m : Manager) {key val : Ty} (hk : Made key) (hv : Made val) : Made (m.map key val)
  | adt (m : Manager) (name : String) {params : List Ty} (h : ∀ t ∈ params, Made t) :
    Made (m.adt name params)
  | constructor (m : Manager) {o : Origin} {adtName : String} {params : List Ty} (name : String)
    {fields : List (Field Ty)} (ha : Made (.adt o adtName params)) (h : ∀ f ∈ fields, Made f.ty) :
    Made (m.constructor (.adt o adtName params) name fields)
  | aliased (m : Manager) (name : String) {target : Ty} (h : Made target) :
    Made (m.aliased name target)

/-- Relations, and no other sets, hold tuples, and constructors belong to data types. -/
inductive WellFormed : Ty → Prop
  | basic (o : Origin) (b : BasicTy) : WellFormed (.basic o b)
  | tuple (o : Origin) {fields : List (Field Ty)} (h : ∀ f ∈ fields, WellFormed f.ty) :
    WellFormed (.tuple o fields)
  | list (o : Origin) {elem : Ty} (h : WellFormed elem) : WellFormed (.list o elem)
  | set (o : Origin) {elem : Ty} (hs : elem.isTuple = false) (h : WellFormed elem) :
    WellFormed (.set o elem)
  | relation (o : Origin) {row : Ty} (hr : row.isTuple = true) (h : WellFormed row) :
    WellFormed (.relation o row)
  | map (o : Origin) {key val : Ty} (hk : WellFormed key) (hv : WellFormed val) :
    WellFormed (.map o key val)
  | adt (o : Origin) (name : String) {params : List Ty} (h : ∀ t ∈ params, WellFormed t) :
    WellFormed (.adt o name params)
  | constructor (o : Origin) {o' : Origin} {adtName : String} {params : List Ty} (name : String)
    {fields : List (Field Ty)} (ha : WellFormed (.adt o' adtName params))
    (h : ∀ f ∈ fields, WellFormed f.ty) :
    WellFormed (.constructor o (.adt o' adtName params) name fields)
  | aliased (o : Origin) (name : String) {target : Ty} (h : WellFormed target) :
    WellFormed (.aliased o name target)

theorem relationOver_eq_ok {m : Manager} {row t : Ty} :
    m.relationOver row = .ok t ↔ row.isTuple = true ∧ t = .relation m.origin row := by
  unfold Manager.relationOver
  by_cases h : row.isTuple = true
  · simp [h, eq_comm]
  · simp [h]

namespace WellFormed

protected theorem setOf (m : Manager) {e : Ty} (h : e.WellFormed) : (m.set e).WellFormed := by
  unfold Manager.set
  split
  · next he => exact .relation _ he h
  · next he => exact .set _ (by simpa using he) h

protected theorem made {t : Ty} (h : t.WellFormed) : t.Made := by
  induction h with
  | basic o b => exact .basic ⟨o⟩ b
  | tuple o _ ih => exact .tuple ⟨o⟩ ih
  | list o _ ih => exact .list ⟨o⟩ ih
  | @set o elem he _ ih =>
    have hset : (⟨o⟩ : Manager).set elem = .set o elem := by simp [Manager.set, he]
    exact hset ▸ Made.set ⟨o⟩ ih
  | relation o hr _ ih => exact .relation ⟨o⟩ ih (relationOver_eq_ok.2 ⟨hr, rfl⟩)
  | map o _ _ ihk ihv => exact .map ⟨o⟩ ihk ihv
  | adt o n _ ih => exact .adt ⟨o⟩ n ih
  | constructor o n _ _ iha ih => exact .constructor ⟨o⟩ n iha ih
  | aliased o n _ ih => exact .aliased ⟨o⟩ n ih

protected theorem unalias : ∀ {t : Ty}, t.WellFormed → t.unalias.WellFormed
  | _, aliased _ _ h => h.unalias
  | _, basic o b => basic o b
  | _, tuple o h => tuple o h
  | _, list o h => list o h
  | _, set o hs h => set o hs h
  | _, relation o hr h => relation o hr h
  | _, map o hk hv => map o hk hv
  | _, adt o n h => adt o n h
  | _, constructor o n ha h => constructor o n ha h

end WellFormed

protected theorem Made.wellFormed {t : Ty} (h : t.Made) : t.WellFormed := by
  induction h with
  | basic m b => exact .basic _ b
  | tuple m _ ih => exact .tuple _ ih
  | list m _ ih => exact .list _ ih
  | set m _ ih => exact .setOf m ih
  | relation m _ ht ih =>
    obtain ⟨hr, rfl⟩ := relationOver_eq_ok.1 ht
    exact .relation _ hr ih
  | map m _ _ ihk ihv => exact .map _ ihk ihv
  | adt m n _ ih => exact .adt _ n ih
  | constructor m n _ _ iha ih => exact .constructor _ n iha ih
  | aliased m n _ ih => exact .aliased _ n ih

/-- Managers make exactly the well-formed types. -/
theorem made_iff {t : Ty} : t.Made ↔ t.WellFormed := ⟨Made.wellFormed, WellFormed.made⟩

end Ty

end ValueAlgebra
