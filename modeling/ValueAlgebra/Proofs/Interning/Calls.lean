import ValueAlgebra.Proofs.Interning.Joins

/-!
# Building types in an arena

A call of a manager names its operands by reference and interns what it builds. The reference that
it returns stands for the type that the manager makes of the operands, and it fails where the
manager does.

## Main definitions

- `Call`, `Call.answer`: what a manager can be asked to build, and what it makes of types
- `Call.run`: the same by reference
- `Arena.Answers`: a program by reference comes to the same as one on types
-/

namespace ValueAlgebra

variable {ρ σ : Type}

/-- A call that builds a type, with its operands given as `ρ`. -/
inductive Call (ρ : Type)
  | basic (b : BasicTy)
  | tuple (types : List ρ)
  | labeledTuple (fields : List (ρ × String))
  | tupleOfFields (fields : List (Field ρ))
  | list (elem : ρ)
  | set (elem : ρ)
  | map (key val : ρ)
  | relation (types : List ρ)
  | relationOver (row : ρ)
  | lub (left right : ρ)

namespace Call

def operands : Call ρ → List ρ
  | basic _ => []
  | tuple ts | relation ts => ts
  | labeledTuple fs => fs.map Prod.fst
  | tupleOfFields fs => fs.map Field.ty
  | list e | set e | relationOver e => [e]
  | map k v => [k, v]
  | lub t u => [t, u]

def mapOperands (f : ρ → σ) : Call ρ → Call σ
  | basic b => basic b
  | tuple ts => tuple (ts.map f)
  | labeledTuple fs => labeledTuple (fs.map fun x => (f x.1, x.2))
  | tupleOfFields fs => tupleOfFields (fs.map (Field.mapTy f))
  | list e => list (f e)
  | set e => set (f e)
  | map k v => map (f k) (f v)
  | relation ts => relation (ts.map f)
  | relationOver row => relationOver (f row)
  | lub t u => lub (f t) (f u)

/-- What the manager makes of types. -/
def answer (m : Manager) : Call Ty → Except TypeError Ty
  | basic b => .ok (m.basic b)
  | tuple ts => .ok (m.tuple ts)
  | labeledTuple fs => .ok (m.labeledTuple fs)
  | tupleOfFields fs => .ok (m.tupleOfFields fs)
  | list e => .ok (m.list e)
  | set e => .ok (m.set e)
  | map k v => .ok (m.map k v)
  | relation ts => .ok (m.relation ts)
  | relationOver row => m.relationOver row
  | lub t u => .ok (t.lub m u)

open Arena in
/-- The call by reference. -/
def run : Call Ref → Interning Ref
  | basic b => intern (.basic b)
  | tuple ts => intern (.tuple (ts.map fun t => ⟨t, none⟩))
  | labeledTuple fs => intern (.tuple (fs.map fun f => ⟨f.1, some f.2⟩))
  | tupleOfFields fs => intern (.tuple fs)
  | list e => intern (.list e)
  | set e => internSet e
  | map k v => intern (.map k v)
  | relation ts => do
    intern (.relation (← intern (.tuple (ts.map fun t => ⟨t, none⟩))))
  | relationOver row => do
    let t := (← get).read row
    if t.isTuple then intern (.relation row) else throw (.notATuple t)
  | lub t u => Arena.lub t u

end Call

variable {a : Arena}

namespace Arena

/-- By reference the program comes to the given answer on types, and what it interned stays. -/
def Answers (a : Arena) (x : Interning Ref) : Except TypeError Ty → Prop
  | .ok t => a.Leads x fun r a' => a'.Reads r t
  | .error e => ∃ a', x a = .error e a' ∧ a.Grows a'

theorem leads_intern_unlabeled {ts : List Ref} (h : a.Canonical) (hts : ∀ r ∈ ts, a.Holds r) :
    a.Leads (intern (.tuple (ts.map fun t => ⟨t, none⟩))) fun r a' =>
      a'.Reads r (a.manager.tuple (ts.map a.read)) := by
  refine (Grows.refl h).leads_intern (l := .tuple _) ?_ (congrArg Layer.tuple ?_)
  · simpa [Layer.parts] using hts
  · simp [Field.mapTy]

end Arena

open Arena in
/-- Calls by reference answer what the manager does. -/
theorem Call.answers_run (h : a.Canonical) (c : Call Ref) (hc : ∀ r ∈ c.operands, a.Holds r) :
    a.Answers c.run ((c.mapOperands a.read).answer a.manager) := by
  cases c with
  | basic b => exact leads_intern (n := .basic b) h hc
  | tuple ts => exact leads_intern_unlabeled h hc
  | labeledTuple fs =>
    refine (Grows.refl h).leads_intern (l := .tuple _) ?_ (congrArg Layer.tuple ?_)
    · simpa [operands, Layer.parts] using hc
    · simp [Field.mapTy]
  | tupleOfFields fs => exact leads_intern (n := .tuple fs) h hc
  | list e => exact leads_intern (n := .list e) h hc
  | map k v => exact leads_intern (n := .map k v) h hc
  | set e => exact leads_internSet h (hc e (.head _))
  | relation ts =>
    apply (leads_intern_unlabeled h hc).bind
    intro row a' hg hrow
    exact hg.leads_intern (n := .relation row) (List.forall_mem_singleton.2 hrow.holds)
      (congrArg Layer.relation hrow.read_eq)
  | relationOver row =>
    show a.Answers _ (a.manager.relationOver (a.read row))
    rw [Manager.relationOver]
    by_cases ht : (a.read row).isTuple
    · rw [if_pos ht]
      refine Leads.get_bind ?_
      rw [if_pos ht]
      exact leads_intern (n := .relation row) h hc
    · rw [if_neg ht]
      refine ⟨a, ?_, .refl h⟩
      show (if (a.read row).isTuple then _ else _ : Interning Ref) a = _
      rw [if_neg ht]
      rfl
  | lub t u => exact leads_lub h (hc t (.head _)) (hc u (.tail _ (.head _)))

end ValueAlgebra
