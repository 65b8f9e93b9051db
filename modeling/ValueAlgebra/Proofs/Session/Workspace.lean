import ValueAlgebra.Proofs.Interning.Runs
import ValueAlgebra.Proofs.Session.Typed
import ValueAlgebra.Proofs.Store.Union
import ValueAlgebra.Proofs.Ty.Normal

/-!
# The types at hand

A workspace is what a program holds after any calls in any order: types that managers gave it,
stores, and a session of values. The types it can use next are these, those that its stores declare,
those of its values, and whatever is nested in them. All of them are well formed, hence in normal
form: a call on well-formed types gives one, a store hands out the types that were declared in it,
and values are typed by managers.

## Main definitions

- `Workspace`: types, stores and a session
- `Workspace.Has`: the types that a program can take hold of
- `Workspace.Step`, `Workspace.Reachable`: one call, and the workspaces of all programs
-/

namespace ValueAlgebra

structure Workspace where
  types : List Ty := []
  /-- Every state of a store stays at hand, as stores can be copied. -/
  stores : List Store := []
  session : Session := {}

namespace Workspace

/-- The types that a program is given, finds in a store or asks a value for. -/
inductive Gives (w : Workspace) : Ty → Prop
  | type {t : Ty} (h : t ∈ w.types) : Gives w t
  | aliased {st : Store} {name : String} {t : Ty} (hst : st ∈ w.stores)
    (h : st.findAlias? name = some t) : Gives w t
  | adt {st : Store} {name : String} {t : Ty} (hst : st ∈ w.stores)
    (h : st.findAdt? name = some t) : Gives w t
  | constructor {st : Store} {owner t : Ty} (hst : st ∈ w.stores)
    (h : t ∈ st.constructorsOf owner) : Gives w t
  | value {v : Value} (h : w.session.Has v) : Gives w v.ty

/-- The type is given, or nested in one that is. -/
def Has (w : Workspace) (t : Ty) : Prop := ∃ u, w.Gives u ∧ t.Within u

/-- One call that succeeds. A declaration that fails leaves its store as it was, and a merge counts
also where it fails. -/
inductive Step (w : Workspace) : Workspace → Prop
  | call (m : Manager) {c : Call Ty} {t : Ty} (hc : ∀ u ∈ c.operands, w.Has u)
    (h : c.answer m = .ok t) : Step w { w with types := t :: w.types }
  | store : Step w { w with stores := ∅ :: w.stores }
  | declare (m : Manager) {d : Declaration Ty} {st st' : Store} {t : Ty} (hst : st ∈ w.stores)
    (hd : ∀ u ∈ d.operands, w.Has u) (h : d.declare m st = .ok t st') :
    Step w { w with types := t :: w.types, stores := st' :: w.stores }
  | merge {st other : Store} {walk : Walk} (hst : st ∈ w.stores) (ho : other ∈ w.stores)
    (hw : walk.Covers other) :
    Step w { w with stores := stateAfter (Store.mergeWalk walk) st :: w.stores }
  | session {s : Session} (h : w.session.Step s) : Step w { w with session := s }

/-- The workspaces of all programs. -/
inductive Reachable : Workspace → Prop
  | start : Reachable {}
  | step {w w' : Workspace} (h : Reachable w) (hw : w.Step w') : Reachable w'

/-- What the workspaces of all programs have in common. -/
structure Sound (w : Workspace) : Prop where
  types : ∀ t ∈ w.types, t.WellFormed
  stores : ∀ st ∈ w.stores, st.Reachable
  session : w.session.Reachable

end Workspace

/-! ### One call -/

/-- A manager makes well-formed types of well-formed types. -/
theorem Call.wellFormed_of_answer {m : Manager} {c : Call Ty} {t : Ty}
    (hc : ∀ u ∈ c.operands, u.WellFormed) (h : c.answer m = .ok t) : t.WellFormed := by
  have hunlabeled {ts : List Ty} (hts : ∀ u ∈ ts, u.WellFormed) : (m.tuple ts).WellFormed :=
    .tuple _ (List.forall_mem_map.2 hts)
  cases c with
  | basic b =>
    obtain rfl := Except.ok.inj h
    exact .basic _ b
  | tuple ts =>
    obtain rfl := Except.ok.inj h
    exact hunlabeled hc
  | labeledTuple fs =>
    obtain rfl := Except.ok.inj h
    exact .tuple _ (List.forall_mem_map.2 (List.forall_mem_map.1 hc))
  | tupleOfFields fs =>
    obtain rfl := Except.ok.inj h
    exact .tuple _ (List.forall_mem_map.1 hc)
  | list e =>
    obtain rfl := Except.ok.inj h
    exact .list _ (hc e (.head _))
  | set e =>
    obtain rfl := Except.ok.inj h
    exact .setOf m (hc e (.head _))
  | map k v =>
    obtain rfl := Except.ok.inj h
    exact .map _ (hc k (.head _)) (hc v (.tail _ (.head _)))
  | relation ts =>
    obtain rfl := Except.ok.inj h
    exact .relation _ rfl (hunlabeled hc)
  | relationOver row =>
    obtain ⟨hrow, rfl⟩ := Ty.relationOver_eq_ok.1 h
    exact .relation _ hrow (hc row (.head _))
  | lub t u =>
    obtain rfl := Except.ok.inj h
    exact (Ty.lub_isJoin m t u (hc t (.head _)) (hc u (.tail _ (.head _)))).wellFormed

namespace Declaration

variable {m : Manager} {d : Declaration Ty} {st : Store}

/-- A declaration gives the type declared now or before. -/
theorem wellFormed_of_declare {st' : Store} {t : Ty} (hst : st.Consistent)
    (hd : ∀ u ∈ d.operands, u.WellFormed) (h : d.declare m st = .ok t st') : t.WellFormed := by
  cases d with
  | aliased name target =>
    rw [declare, Manager.declareAlias, Store.declareAlias_apply] at h
    split at h
    · cases h
    · next old hold =>
      obtain ⟨rfl, -⟩ := EStateM.Result.ok.inj h
      obtain ⟨n, -, hfind⟩ := Store.checkAlias_eq_some hold
      exact hst.alias_wellFormed n _ hfind
    · obtain ⟨rfl, -⟩ := EStateM.Result.ok.inj h
      exact .aliased _ name (hd target (.head _))
  | adt name params =>
    rw [declare, Manager.declareAdt, Store.declareAdt_apply] at h
    split at h
    · cases h
    · next old hold =>
      obtain ⟨rfl, -⟩ := EStateM.Result.ok.inj h
      obtain ⟨n, -, hfind⟩ := Store.checkAdt_eq_some hold
      exact hst.adt_wellFormed n _ hfind
    · obtain ⟨rfl, -⟩ := EStateM.Result.ok.inj h
      exact .adt _ name hd
  | constructor owner name fields =>
    obtain ⟨howner, hfields⟩ := List.forall_mem_cons.1 hd
    cases owner with
    | adt o adtName params =>
      rw [declare, Manager.declareConstructor, Manager.constructor,
        Store.declareConstructor_apply] at h
      split at h
      · split at h
        · next old hold =>
          obtain ⟨rfl, -⟩ := EStateM.Result.ok.inj h
          exact hst.constructor_wellFormed adtName _ (List.mem_of_find?_eq_some hold)
        · obtain ⟨rfl, -⟩ := EStateM.Result.ok.inj h
          exact .constructor _ name howner (List.forall_mem_map.1 hfields)
      · cases h
    -- Only a data type itself may own constructors.
    | _ => cases h

theorem reachable_of_declare {st' : Store} {t : Ty} (hst : st.Reachable)
    (hd : ∀ u ∈ d.operands, u.WellFormed) (h : d.declare m st = .ok t st') : st'.Reachable := by
  obtain rfl : stateAfter (d.declare m) st = st' := by rw [stateAfter, h]
  cases d with
  | aliased name target => exact hst.declareAlias m name (hd target (.head _)).made
  | adt name params => exact hst.declareAdt m name fun u hu => (hd u hu).made
  | constructor owner name fields =>
    obtain ⟨howner, hfields⟩ := List.forall_mem_cons.1 hd
    exact hst.declareConstructor m name howner.made fun f hf =>
      (hfields f.ty (List.mem_map_of_mem hf)).made

end Declaration

namespace Workspace

variable {w w' : Workspace} {t u : Ty}

namespace Sound

theorem wellFormed_of_gives (h : w.Sound) (ht : w.Gives t) : t.WellFormed := by
  cases ht with
  | type ht => exact h.types t ht
  | aliased hst hfind => exact (h.stores _ hst).consistent.alias_wellFormed _ t hfind
  | adt hst hfind => exact (h.stores _ hst).consistent.adt_wellFormed _ t hfind
  | constructor hst hmem => exact (h.stores _ hst).wellFormed_of_mem_constructorsOf hmem
  | value hv => exact (h.session.typed.values _ hv).2

theorem wellFormed (h : w.Sound) (ht : w.Has t) : t.WellFormed := by
  obtain ⟨u, hu, hwithin⟩ := ht
  exact (h.wellFormed_of_gives hu).within hwithin

/-- Every call keeps a workspace sound. -/
theorem step (h : w.Sound) (hw : w.Step w') : w'.Sound := by
  cases hw with
  | call m hc ht =>
    refine { h with types := List.forall_mem_cons.2 ⟨?_, h.types⟩ }
    exact Call.wellFormed_of_answer (fun u hu => h.wellFormed (hc u hu)) ht
  | store => exact { h with stores := List.forall_mem_cons.2 ⟨.empty, h.stores⟩ }
  | declare m hst hd ht =>
    have hoperands := fun u hu => h.wellFormed (hd u hu)
    have hstore := h.stores _ hst
    exact
      { h with
        types := List.forall_mem_cons.2
          ⟨Declaration.wellFormed_of_declare hstore.consistent hoperands ht, h.types⟩
        stores := List.forall_mem_cons.2
          ⟨Declaration.reachable_of_declare hstore hoperands ht, h.stores⟩ }
  | merge hst ho hwalk =>
    refine { h with stores := List.forall_mem_cons.2 ⟨?_, h.stores⟩ }
    exact .merge (h.stores _ hst) (h.stores _ ho) hwalk
  | session hs => exact { h with session := .step h.session hs }

end Sound

theorem Reachable.sound (h : w.Reachable) : w.Sound := by
  induction h with
  | start => exact ⟨nofun, nofun, .start⟩
  | step _ hw ih => exact ih.step hw

/-- Whatever a program does, every type that it can take hold of is in normal form, and no set
without tuples is equivalent to a relation. Where types are kept by reference, following aliases
ends after at most as many steps as there are older references, at one that is no alias. -/
theorem Reachable.types_normal (h : w.Reachable) :
    (∀ t, w.Has t → t.Normal) ∧
    (∀ t u, w.Has t → w.Has u → t.kind = .set → u.kind = .relation →
      t.isEquivalentTo u = false ∧ u.isEquivalentTo t = false) ∧
    ∀ s : Run, s.Reachable → ∀ r, s.arena.Holds r →
      ∃ k ≤ r, s.arena.dealias^[k] r = s.arena.unalias r ∧
        ∀ name q, s.arena.layer? (s.arena.unalias r) ≠ some (.aliased name q) := by
  have hsound := h.sound
  refine ⟨fun t ht => (hsound.wellFormed ht).normal, fun t u ht hu hset hrelation => ?_,
    fun s hs r hr => hs.sound.canonical.exists_iterate_dealias hr⟩
  have hne : t.kind ≠ u.kind := by
    rw [hset, hrelation]
    nofun
  have htwf := hsound.wellFormed ht
  have huwf := hsound.wellFormed hu
  constructor
  · exact Bool.eq_false_iff.2 fun heq => hne (htwf.kind_eq_of_isEquivalentTo huwf heq)
  · exact Bool.eq_false_iff.2 fun heq => hne (huwf.kind_eq_of_isEquivalentTo htwf heq).symm

/-! ### Points and numbers -/

namespace Sample

def manager : Manager := ⟨0⟩

def point : Ty := manager.labeledTuple [(manager.int, "x")]

def named : Ty := manager.aliased "Point" point

/-- A relation, since the alias stands for a tuple. -/
def points : Ty := manager.set named

def numbers : Ty := manager.set manager.int

/-- The store that declares `Point`, and the sets of points and of numbers. -/
def workspace : Workspace where
  types := [numbers, points, named, point, manager.int]
  stores := [(∅ : Store).addAlias named, ∅]

theorem reachable_workspace : workspace.Reachable := by
  have hint : Reachable { types := [manager.int] } :=
    .step .start (.call manager (c := .basic .int) nofun rfl)
  have hpoint : Reachable { types := [point, manager.int] } :=
    .step hint (.call manager (c := .labeledTuple [(manager.int, "x")])
      (List.forall_mem_singleton.2 ⟨_, .type (.head _), .refl⟩) rfl)
  have hstore : Reachable { types := [point, manager.int], stores := [∅] } := .step hpoint .store
  have hnamed : Reachable
      { types := [named, point, manager.int], stores := [(∅ : Store).addAlias named, ∅] } :=
    .step hstore (.declare manager (d := .aliased "Point" point) (.head _)
      (List.forall_mem_singleton.2 ⟨_, .type (.head _), .refl⟩) rfl)
  have hpoints : Reachable
      { types := [points, named, point, manager.int]
        stores := [(∅ : Store).addAlias named, ∅] } :=
    .step hnamed (.call manager (c := .set named)
      (List.forall_mem_singleton.2 ⟨_, .type (.head _), .refl⟩) rfl)
  -- The type of numbers is taken from the alias, which is found in the store.
  have hwithin : manager.int.Within named :=
    .part (n := .aliased "Point" point) (.head _)
      (.part (n := .tuple [⟨manager.int, some "x"⟩]) (.head _) .refl)
  have hfound : ((∅ : Store).addAlias named).findAlias? "Point" = some named := rfl
  exact .step hpoints (.call manager (c := .set manager.int)
    (List.forall_mem_singleton.2 ⟨named, .aliased (.head _) hfound, hwithin⟩) rfl)

end Sample

open Sample in
theorem types_normal_points : points.Normal ∧ points.kind = .relation ∧ numbers.kind = .set ∧
    numbers.isEquivalentTo points = false ∧ points.isEquivalentTo numbers = false := by
  obtain ⟨hnormal, hapart, -⟩ := reachable_workspace.types_normal
  have hpoints : workspace.Has points := ⟨points, .type (.tail _ (.head _)), .refl⟩
  have hnumbers : workspace.Has numbers := ⟨numbers, .type (.head _), .refl⟩
  exact ⟨hnormal points hpoints, rfl, rfl, hapart numbers points hnumbers hpoints rfl rfl⟩

end Workspace

end ValueAlgebra
