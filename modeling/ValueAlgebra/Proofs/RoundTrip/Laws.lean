import ValueAlgebra.Proofs.RoundTrip.Narrowing
import ValueAlgebra.Proofs.RoundTrip.Reading

/-!
# Round trips

What reading the text of a reachable value gives. Where the store keeps constructors apart, every
value of declared constructors comes back equal, with the same text and a type below its own. With
overloads that share name and number of fields it comes back exactly if it has a type to be read
back with, and then it is equal too: the first overload that accepts the arguments has the names of
the one that was applied.
-/

namespace ValueAlgebra

namespace Session

variable {s : Session} {r : Reader} {st : Store} {v : Value}

/-- What is read is the value, as far as text goes. -/
theorem Reachable.readsAs_of_read (hs : s.Reachable) (hst : st.Reachable)
    (hstore : r.store = some st) (hv : s.Has v) (hname : v.Spelled) (hdepth : v.depth ≤ r.maxDepth)
    {m : Manager} {w : Value} {n : Cell} (h : r.read m s.next v.text = .ok (w, n)) :
    v.ReadsAs st m w ∧ (w == v) = true := by
  have hbuild := (Value.read_text_eq_ok hname hdepth).1 h
  have hreads := Value.returns hst hstore (hs.coherent.sound hv) hname hs.typed.values hs.coherent
    hbuild
  -- Both values are at hand after reading, where equality compares contents.
  obtain ⟨s', hgrows, -, hw⟩ := build_grows (Value.reachable_of_store hst hstore) _
    hs.typed.values hbuild
  have hc := hgrows.coherent hs.coherent
  have hv' : s'.Has v := hgrows.has hv
  exact ⟨hreads, (hc.beq_iff_same hw hv').2
    (Value.same_symm (hc.sound hv') (hc.sound hw) hreads.same)⟩

/-- A value that has a type to be read back with is read back. -/
theorem Reachable.exists_read (hs : s.Reachable) (hst : st.Reachable) (hstore : r.store = some st)
    (hv : s.Has v) (hname : v.Spelled) (hdepth : v.depth ≤ r.maxDepth) {m : Manager}
    (h : (v.readTy? st m).isSome = true) : ∃ w n, r.read m s.next v.text = .ok (w, n) := by
  obtain ⟨w, n, hw⟩ := Value.builds hst hstore (hs.coherent.sound hv) hname hs.typed.values
    hs.coherent h
  exact ⟨w, n, (Value.read_text_eq_ok hname hdepth).2 hw⟩

/-- Where no two constructors of a data type share both name and number of fields, the text of
every value of declared constructors is read as an equal value with the same text and a type below
that of the value. -/
theorem Reachable.read_text (hs : s.Reachable) (hst : st.Reachable) (hapart : st.KeepsApart)
    (hstore : r.store = some st) (hv : s.Has v) (hdecl : v.DeclaredIn st) (hname : v.Spelled)
    (hdepth : v.depth ≤ r.maxDepth) (m : Manager) : ∃ w n, r.read m s.next v.text = .ok (w, n) ∧
      (w == v) = true ∧ w.text = v.text ∧ w.ty.isSubtypeOf v.ty = true := by
  -- Reading succeeds since types read back are narrower and still fit every field.
  obtain ⟨t, ht⟩ := Value.narrows (m := m) hst hapart
    (fun w hw => (hs.typed.values w (hv.within hw)).1) hdecl
  obtain ⟨w, n, hw⟩ := hs.exists_read hst hstore hv hname hdepth (Option.isSome_of_eq_some ht.read)
  obtain ⟨hreads, heq⟩ := hs.readsAs_of_read hst hstore hv hname hdepth hw
  obtain rfl := Option.some.inj (ht.read.symm.trans hreads.ty)
  refine ⟨w, n, hw, heq, ?_, ht.below⟩
  rw [Value.text_eq, Value.text_eq, hreads.derivation]

/-! ### A data type with a constructor over integers -/

namespace Sample

def manager : Manager := ⟨0⟩

def owner : Ty := manager.adt "E" []

/-- `E::c(int)`. -/
def narrow : Ty := manager.constructor owner "c" [⟨manager.int, none⟩]

/-- The data type alone. -/
def bare : Store := stateAfter (manager.declareAdt "E" []) ∅

/-- The data type and its constructor. -/
def store : Store :=
  stateAfter (manager.declareConstructor owner "c" [⟨manager.int, none⟩]) bare

def number : Value := Build.int manager 1

/-- The value `E::c(1)`. -/
def application : Value := .constructor narrow 1 [number]

/-- A number and an application to it. -/
def session : Session := (({} : Session).add number).add application

theorem made_owner : owner.Made := .adt _ _ (List.forall_mem_nil _)

theorem made_narrow : narrow.Made :=
  .constructor _ _ made_owner (List.forall_mem_singleton.2 (.basic _ _))

theorem reachable_bare : bare.Reachable := .declareAdt .empty _ _ (List.forall_mem_nil _)

theorem reachable_store : store.Reachable :=
  .declareConstructor reachable_bare _ _ made_owner (List.forall_mem_singleton.2 (.basic _ _))

theorem reachable_session : session.Reachable := by
  have hnumber : (({} : Session).add number).Has number := has_of_mem List.mem_cons_self
  refine .make (.make .start (.int manager 1)) ?_
  exact .constructor made_narrow (List.forall_mem_singleton.2 hnumber) rfl

/-- An application to numbers holds no other application. -/
theorem eq_of_within {u t : Ty} {c c' : Cell} {vs : List Value}
    (h : (Value.constructor t c vs).Within (.constructor u c' [number])) : t = u := by
  cases h with
  | refl => rfl
  | part hp h =>
    obtain rfl := List.mem_singleton.1 hp
    cases h with
    | part hp h => cases hp

theorem constructorsOf_store {adt c : Ty} (h : c ∈ store.constructorsOf adt) : c = narrow := by
  obtain ⟨a, -, hmem⟩ := Store.of_mem_constructorsOf h
  have hstore : store.constructors = Std.ExtTreeMap.insert ∅ "E" [narrow] := rfl
  rw [hstore, Std.ExtTreeMap.getD_insert] at hmem
  split at hmem
  · exact List.mem_singleton.1 hmem
  · rw [Std.ExtTreeMap.getD_empty] at hmem
    cases hmem

end Sample

open Sample in
theorem read_text_application :
    let r : Reader := { store := some store }
    ∃ w n, r.read manager session.next application.text = .ok (w, n) ∧
      (w == application) = true ∧ w.text = application.text ∧
        w.ty.isSubtypeOf application.ty = true := by
  intro r
  refine reachable_session.read_text reachable_store ?_ rfl (has_of_mem List.mem_cons_self) ?_ ?_
    (by decide) manager
  · intro adt c hc d hd _ _
    rw [constructorsOf_store hc, constructorsOf_store hd]
  · intro t c vs h
    obtain rfl := eq_of_within h
    exact ⟨owner, narrow, rfl, List.mem_singleton_self _, rfl⟩
  · intro t c vs h
    obtain rfl := eq_of_within h
    exact ⟨"E", "c", rfl, rfl, rfl, rfl⟩

/-- Whatever the overloads, the text of a value is read exactly if every application in it finds
an overload for the types that its arguments are read back with, and then it is read as an equal
value of the type found. -/
theorem Reachable.read_text_overloaded (hs : s.Reachable) (hst : st.Reachable)
    (hstore : r.store = some st) (hv : s.Has v) (hname : v.Spelled) (hdepth : v.depth ≤ r.maxDepth)
    (m : Manager) :
    ((∃ w n, r.read m s.next v.text = .ok (w, n)) ↔ (v.readTy? st m).isSome = true) ∧
      ∀ w n, r.read m s.next v.text = .ok (w, n) →
        (w == v) = true ∧ v.readTy? st m = some w.ty := by
  have hsound (w : Value) (n : Cell) (h : r.read m s.next v.text = .ok (w, n)) :
      (w == v) = true ∧ v.readTy? st m = some w.ty := by
    obtain ⟨hreads, heq⟩ := hs.readsAs_of_read hst hstore hv hname hdepth h
    exact ⟨heq, hreads.ty⟩
  refine ⟨⟨?_, hs.exists_read hst hstore hv hname hdepth⟩, hsound⟩
  rintro ⟨w, n, h⟩
  exact Option.isSome_of_eq_some (hsound w n h).2

/-! ### A field that only one overload fits -/

namespace Sample

/-- `E::c(value)`, which takes all that `narrow` takes. -/
def wide : Ty := manager.constructor owner "c" [⟨manager.value, none⟩]

/-- `E::d`, which takes applications of `narrow` only. -/
def holder : Ty := manager.constructor owner "d" [⟨narrow, none⟩]

/-- The constructors `wide`, `narrow` and `holder`, in this order. -/
def overloaded : Store :=
  stateAfter (manager.declareConstructor owner "d" [⟨narrow, none⟩])
    (stateAfter (manager.declareConstructor owner "c" [⟨manager.int, none⟩])
      (stateAfter (manager.declareConstructor owner "c" [⟨manager.value, none⟩]) bare))

/-- The value `E::d(E::c(1))`. -/
def held : Value := .constructor holder 2 [application]

def heldSession : Session := session.add held

theorem reachable_overloaded : overloaded.Reachable := by
  refine .declareConstructor (.declareConstructor (.declareConstructor reachable_bare _ _ made_owner
    ?_) _ _ made_owner ?_) _ _ made_owner ?_
  · exact List.forall_mem_singleton.2 (.basic _ _)
  · exact List.forall_mem_singleton.2 (.basic _ _)
  · exact List.forall_mem_singleton.2 made_narrow

theorem reachable_heldSession : heldSession.Reachable := by
  have happlication : session.Has application := has_of_mem List.mem_cons_self
  have hholder : holder.Made :=
    .constructor _ _ made_owner (List.forall_mem_singleton.2 made_narrow)
  exact .make reachable_session
    (.constructor hholder (List.forall_mem_singleton.2 happlication) rfl)

theorem eq_of_within_held {t : Ty} {c : Cell} {vs : List Value}
    (h : (Value.constructor t c vs).Within held) : t = holder ∨ t = narrow := by
  cases h with
  | refl => exact .inl rfl
  | part hp h =>
    obtain rfl := List.mem_singleton.1 hp
    exact .inr (eq_of_within h)

theorem declaredIn_held : held.DeclaredIn overloaded := by
  have hall : overloaded.constructorsOf owner = [wide, narrow, holder] := rfl
  intro t c vs h
  rcases eq_of_within_held h with rfl | rfl
  · exact ⟨owner, holder, rfl, by rw [hall]; simp, rfl⟩
  · exact ⟨owner, narrow, rfl, by rw [hall]; simp, rfl⟩

theorem spelled_held : held.Spelled := by
  intro t c vs h
  rcases eq_of_within_held h with rfl | rfl
  · exact ⟨"E", "d", rfl, rfl, rfl, rfl⟩
  · exact ⟨"E", "c", rfl, rfl, rfl, rfl⟩

/-- The argument is read back with the type `wide`, which `holder` does not take. -/
theorem readTy?_held : held.readTy? overloaded manager = none := rfl

end Sample

open Sample in
theorem read_text_overloaded_held : let r : Reader := { store := some overloaded }
    ¬ ∃ w n, r.read manager heldSession.next held.text = .ok (w, n) := by
  intro r
  have hiff := (reachable_heldSession.read_text_overloaded reachable_overloaded rfl
    (has_of_mem List.mem_cons_self) spelled_held (by decide) manager (r := r)).1
  rw [hiff, readTy?_held]
  decide

open Sample in
/-- Not every value of declared constructors is read back. -/
theorem exists_unreadable : ∃ (s : Session) (st : Store) (r : Reader) (v : Value) (m : Manager),
    s.Reachable ∧ st.Reachable ∧ r.store = some st ∧ s.Has v ∧ v.DeclaredIn st ∧ v.Spelled ∧
      v.depth ≤ r.maxDepth ∧ ¬ ∃ w n, r.read m s.next v.text = .ok (w, n) ∧ (w == v) = true := by
  refine ⟨heldSession, overloaded, { store := some overloaded }, held, manager,
    reachable_heldSession, reachable_overloaded, rfl, has_of_mem List.mem_cons_self,
    declaredIn_held, spelled_held, by decide, ?_⟩
  rintro ⟨w, n, h, -⟩
  have hreads := (reachable_heldSession.readsAs_of_read reachable_overloaded rfl
    (has_of_mem List.mem_cons_self) spelled_held (by decide) h).1
  have hty := hreads.ty
  rw [readTy?_held] at hty
  cases hty

end Session

end ValueAlgebra
