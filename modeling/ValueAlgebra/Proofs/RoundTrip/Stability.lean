import ValueAlgebra.Proofs.RoundTrip.Laws
import ValueAlgebra.Proofs.RoundTrip.Settled

/-!
# Reading what was read

A value that was read is written and read again by the same reader. What comes back is equal to it
and has its text. Its type comes back as well if the text that was read first is settled, and
otherwise below it, as long as constructors are kept apart.

## Main definitions

- `Reader.Settles`: no map in the text gets its type from a value that is replaced
- `Reader.Recovers`: the text of a value is read as a value that is equal to it
-/

namespace ValueAlgebra

theorem Derivation.Settled.filled {r : Reader} {m : Manager} {d : Derivation}
    (h : d.Settled r m) : d.Settled r.filled m := by
  induction h with
  | scalar sc => exact .scalar sc
  | bracket b _ ih => exact .bracket b ih
  | map _ _ h ihk ihx =>
    refine .map ihk ihx fun c xs n hxs => ?_
    rw [buildEntries_filled] at hxs
    exact h c xs n hxs

namespace Reader

variable {r : Reader} {m : Manager}

theorem reachable_known (hr : ∀ st ∈ r.store, st.Reachable) : r.known.Reachable := by
  unfold known
  cases hst : r.store with
  | none => exact .empty
  | some st => exact hr st hst

/-- No map in the text gets its type from a value that a later one replaces. -/
def Settles (r : Reader) (m : Manager) (text : String) : Prop :=
  ∀ (ts : List Token) (d : Derivation), Lexer.tokens text.toList = .ok ts →
    d.lexemes = lexemesOf ts → d.Settled r m

theorem settles_written {d : Derivation} (hd : d.Canonical) (h : d.Settled r m) :
    r.Settles m (String.ofList d.written) := by
  intro ts e hts he
  exact Derivation.eq_of_tokens_written hd hts he ▸ h

/-- The text of `v` is read as `w`, which is equal to `v` and has the same text. -/
def Recovers (r : Reader) (m : Manager) (c : Cell) (v w : Value) : Prop :=
  ∃ n, r.read m c v.text = .ok (w, n) ∧ (w == v) = true ∧ w.text = v.text

end Reader

namespace Session

variable {s s' : Session} {r : Reader} {m : Manager} {text : String} {v w : Value} {n : Cell}

/-- What comes back is the value with the type that it is read back with. -/
theorem Reachable.recovers_of_read (hs : s.Reachable) (hr : ∀ st ∈ r.store, st.Reachable)
    (hv : s.Has v) (hname : v.Spelled) (hdepth : v.depth ≤ r.maxDepth)
    (h : r.read m s.next v.text = .ok (w, n)) :
    r.Recovers m s.next v w ∧ v.readTy? r.known m = some w.ty := by
  obtain ⟨hreads, heq⟩ := hs.readsAs_of_read (r := r.filled) (Reader.reachable_known hr) rfl hv
    hname hdepth (Reader.read_filled_eq_ok.2 h)
  refine ⟨⟨n, h, heq, ?_⟩, hreads.ty⟩
  rw [Value.text_eq, Value.text_eq, hreads.derivation]

theorem Reachable.exists_recovers (hs : s.Reachable) (hr : ∀ st ∈ r.store, st.Reachable)
    (hv : s.Has v) (hname : v.Spelled) (hdepth : v.depth ≤ r.maxDepth) {t : Ty}
    (ht : v.readTy? r.known m = some t) : ∃ w, r.Recovers m s.next v w ∧ w.ty = t := by
  obtain ⟨w, n, h⟩ := hs.exists_read (r := r.filled) (Reader.reachable_known hr) rfl hv hname hdepth
    (Option.isSome_of_eq_some ht)
  obtain ⟨hrecovers, hty⟩ :=
    hs.recovers_of_read hr hv hname hdepth (Reader.read_filled_eq_ok.1 h)
  exact ⟨w, hrecovers, Option.some.inj (hty.symm.trans ht)⟩

/-- A value that is read is one that can be read again. -/
theorem Reachable.exists_readFrom (hs : s.Reachable) (hr : ∀ st ∈ r.store, st.Reachable)
    (h : r.read m s.next text = .ok (v, n)) : ∃ d, v.ReadFrom r.known m d ∧ v.Spelled ∧
      v.depth ≤ r.maxDepth ∧ (r.Settles m text → v.KeepsType r.known m) := by
  obtain ⟨ts, d, hts, hd, hdepth, hbuild⟩ := Reader.read_eq_ok.1 h
  have hst := Reader.reachable_known hr
  rw [← Derivation.build_filled] at hbuild
  have hfrom := (Value.inherits_readFrom r.filled hst).build hst rfl hs.typed.values hs.coherent
    hbuild
  have hkeeps := (Value.inherits_keepsType r.filled hst).build hst rfl hs.typed.values hs.coherent
    hbuild
  have hnames : d.Names := fun n hn => Lexer.isName_of_tokens hts n (hd ▸ hn)
  exact ⟨d, hfrom, hfrom.spelled hnames, hfrom.depth.trans hdepth,
    fun hsettles => hkeeps (hsettles ts d hts hd).filled⟩

/-- Let a text be read as `v`. What the text of `v` is read as is equal to `v` and has the same
text. If no map in the first text gets its type from a value that is replaced, then there is such a
value with a type of the structure of that of `v`, and the very type if each data type is declared
by one manager. If constructors are kept apart, then there is such a value with a type below. -/
theorem Reachable.recovers_of_read_text (hs : s.Reachable) (hr : ∀ st ∈ r.store, st.Reachable)
    (h : r.read m s.next text = .ok (v, n)) (hs' : s'.Reachable) (hv : s'.Has v) :
    (∀ w n', r.read m s'.next v.text = .ok (w, n') → (w == v) = true ∧ w.text = v.text) ∧
    (r.Settles m text → ∃ w, r.Recovers m s'.next v w ∧ w.ty.sameShape v.ty = true ∧
      (r.known.OneOwner → w.ty = v.ty)) ∧
    (r.known.KeepsApart → ∃ w, r.Recovers m s'.next v w ∧ w.ty.isSubtypeOf v.ty = true) := by
  have hst := Reader.reachable_known hr
  obtain ⟨d, hfrom, hname, hdepth, hkeeps⟩ := hs.exists_readFrom hr h
  refine ⟨fun w n' hw => ?_, fun hsettles => ?_, fun hapart => ?_⟩
  · obtain ⟨⟨_, -, hrecovers⟩, -⟩ := hs'.recovers_of_read hr hv hname hdepth hw
    exact hrecovers
  · obtain ⟨t, ht, hshape⟩ := (hkeeps hsettles).reads
    obtain ⟨w, hw, rfl⟩ := hs'.exists_recovers hr hv hname hdepth ht
    refine ⟨w, hw, Ty.sameShape_iff.2 hshape, fun hone => ?_⟩
    have hinferred := Value.inferred_of_readTy? hst ht
    refine (hinferred.eq_of_isSubtypeOf hst hfrom.inferred ?_ ?_).2 hone
    · rw [Ty.isSubtypeOf_congr_left hshape]
      exact Ty.isSubtypeOf_refl _
    · rw [Ty.isSubtypeOf_congr_right hshape]
      exact Ty.isSubtypeOf_refl _
  · obtain ⟨t, ht⟩ := Value.narrows (m := m) hst hapart
      (fun w hw => (hs'.typed.values w (hv.within hw)).1) hfrom.declared
    obtain ⟨w, hw, rfl⟩ := hs'.exists_recovers hr hv hname hdepth ht.read
    exact ⟨w, hw, ht.below⟩

/-! ### Maps with a key that is repeated -/

namespace Sample

def reader : Reader := { store := some store }

/-- The value `E::c(i)`. -/
def applied (c : Cell) (i : Int64) : Value := .constructor narrow c [Build.int manager i]

/-- `(1:E::c(2),1:E::c(3))`. -/
def repeated : Derivation :=
  .map [(number.derivation, (applied 0 2).derivation),
    (number.derivation, (applied 0 3).derivation)]

/-- The entries of `repeated`, read from cell `c` on. -/
def entries (c : Cell) : List (Value × Value) :=
  [(number, applied (c + 2) 2), (number, applied (c + 5) 3)]

theorem buildEntries_repeated (c : Cell) : Derivation.buildEntries reader manager
    [(number.derivation, (applied 0 2).derivation),
      (number.derivation, (applied 0 3).derivation)] c = .ok (entries c, c + 6) := by
  with_unfolding_all rfl

/-- The second value replaces the first and has its type. -/
theorem types_values_entries (c : Cell) :
    (Table.ofEntries (entries c)).values.map Value.ty = [narrow] := by
  with_unfolding_all rfl

theorem spelled_number (i : Int64) : (Build.int manager i).Spelled :=
  Value.forall_applications nofun nofun

theorem spelled_applied (c : Cell) (i : Int64) : (applied c i).Spelled := by
  refine Value.forall_applications (fun p hp => ?_) ?_
  · obtain rfl := List.mem_singleton.1 hp
    exact spelled_number i
  · rintro t d vs ⟨⟩
    exact ⟨"E", "c", rfl, rfl, rfl, rfl⟩

theorem canonical_repeated : repeated.Canonical := by
  refine Derivation.canonical_map ?_
  simp only [List.forall_mem_cons]
  exact ⟨⟨Value.canonical_derivation _ (spelled_number 1),
    Value.canonical_derivation _ (spelled_applied 0 2)⟩,
    ⟨Value.canonical_derivation _ (spelled_number 1),
    Value.canonical_derivation _ (spelled_applied 0 3)⟩, List.forall_mem_nil _⟩

theorem settled_number (i : Int64) : (Build.int manager i).derivation.Settled reader manager :=
  .scalar _

theorem settled_applied (c : Cell) (i : Int64) :
    (applied c i).derivation.Settled reader manager := by
  rw [applied, Value.derivation_constructor]
  exact .bracket _ (List.forall_mem_singleton.2 (settled_number i))

theorem settled_repeated : repeated.Settled reader manager := by
  refine .map ?_ ?_ fun c xs n hxs => ?_
  · exact List.forall_mem_cons.2 ⟨settled_number 1, List.forall_mem_singleton.2 (settled_number 1)⟩
  · exact List.forall_mem_cons.2
      ⟨settled_applied 0 2, List.forall_mem_singleton.2 (settled_applied 0 3)⟩
  · obtain ⟨rfl, -⟩ := Prod.mk.inj (Except.ok.inj ((buildEntries_repeated c).symm.trans hxs))
    have hnarrow : narrow.isSubtypeOf (manager.lubOf [narrow]) = true := by with_unfolding_all rfl
    rw [types_values_entries]
    exact List.forall_mem_cons.2 ⟨hnarrow, List.forall_mem_singleton.2 hnarrow⟩

def lastApplied : Value := Build.map manager 6 (entries 0)

end Sample

open Sample in
/-- The application that is replaced leaves no trace, neither in the text nor in the type. -/
theorem recovers_repeated : reader.read manager 0 "(1:E::c(2),1:E::c(3))" = .ok (lastApplied, 7) ∧
    lastApplied.text = "(1:E::c(3))" ∧
    (∃ w, reader.Recovers manager 7 lastApplied w ∧ w.ty = lastApplied.ty) ∧
    ∃ w, reader.Recovers manager 7 lastApplied w ∧ w.ty.isSubtypeOf lastApplied.ty = true := by
  have hr : ∀ st ∈ reader.store, st.Reachable := Value.reachable_of_store reachable_store rfl
  have hread : reader.read manager 0 (String.ofList repeated.written) = .ok (lastApplied, 7) :=
    (Reader.read_written_eq_ok canonical_repeated (by decide)).2 (by with_unfolding_all rfl)
  have hlater : ({ next := 7, values := [lastApplied] } : Session).Reachable :=
    .step .start (.read (s := {}) manager hr hread)
  obtain ⟨-, hsettled, hapart⟩ := Reachable.recovers_of_read_text .start hr hread hlater
    (has_of_mem List.mem_cons_self)
  have honly : ∀ adt, ∀ c ∈ store.constructorsOf adt, c = narrow := fun _ _ => constructorsOf_store
  obtain ⟨w, hw, -, hty⟩ := hsettled (Reader.settles_written canonical_repeated settled_repeated)
  refine ⟨hread, by with_unfolding_all rfl, ⟨w, hw, hty fun adt c hc d hd => ?_⟩,
    hapart fun adt c hc d hd _ _ => ?_⟩
  · rw [honly adt c hc, honly adt d hd]
  · rw [honly adt c hc, honly adt d hd]

/-! ### Types that do not come back -/

namespace Sample

def letter : Value := Build.str manager 0 "a"

/-- `(1:2,1:"a")`. -/
def replaced : Derivation :=
  .map [(number.derivation, (Build.int manager 2).derivation),
    (number.derivation, letter.derivation)]

/-- `(1:"a")`, which is left of it. -/
def remaining : Derivation := .map [(number.derivation, letter.derivation)]

theorem spelled_letter : letter.Spelled := Value.forall_applications nofun nofun

theorem canonical_entry {v : Value} (hv : v.Spelled) :
    number.derivation.Canonical ∧ v.derivation.Canonical :=
  ⟨Value.canonical_derivation _ (spelled_number 1), Value.canonical_derivation _ hv⟩

theorem canonical_replaced : replaced.Canonical :=
  Derivation.canonical_map (List.forall_mem_cons.2
    ⟨canonical_entry (spelled_number 2), List.forall_mem_singleton.2
      (canonical_entry spelled_letter)⟩)

theorem canonical_remaining : remaining.Canonical :=
  Derivation.canonical_map (List.forall_mem_singleton.2 (canonical_entry spelled_letter))

/-- Another manager, and the data type of `owner` as that makes it. -/
def secondManager : Manager := ⟨1⟩

def secondOwner : Ty := secondManager.adt "E" []

/-- `E::c` and `E::d`, whose data types have the same structure. -/
def ofFirst : Ty := manager.constructor owner "c" []

def ofSecond : Ty := secondManager.constructor secondOwner "d" []

/-- The constructors of both managers. -/
def mixed : Store :=
  stateAfter (secondManager.declareConstructor secondOwner "d" [])
    (stateAfter (manager.declareConstructor owner "c" []) bare)

def mixedReader : Reader := { store := some mixed }

def nullary (t : Ty) (c : Cell) : Value := .constructor t c []

/-- `E::c(),E::d()` in braces. -/
def pair : Derivation :=
  .bracket .set [(nullary ofFirst 0).derivation, (nullary ofSecond 0).derivation]

/-- The pair and the same set in the other order. -/
def pairs : Derivation :=
  .bracket .set [pair,
    .bracket .set [(nullary ofSecond 0).derivation, (nullary ofFirst 0).derivation]]

theorem reachable_mixed : mixed.Reachable :=
  .declareConstructor (.declareConstructor reachable_bare _ _ made_owner (List.forall_mem_nil _))
    _ _ (.adt _ _ (List.forall_mem_nil _)) (List.forall_mem_nil _)

theorem canonical_set {ds : List Derivation} (h : ∀ d ∈ ds, d.Canonical) :
    (Derivation.bracket .set ds).Canonical :=
  Derivation.canonical_bracket (List.forall_mem_singleton.2 trivial) h

theorem canonical_ofFirst : (nullary ofFirst 0).derivation.Canonical := by
  refine Value.canonical_derivation _ (Value.forall_applications nofun ?_)
  rintro t c vs ⟨⟩
  exact ⟨"E", "c", rfl, rfl, rfl, rfl⟩

theorem canonical_ofSecond : (nullary ofSecond 0).derivation.Canonical := by
  refine Value.canonical_derivation _ (Value.forall_applications nofun ?_)
  rintro t c vs ⟨⟩
  exact ⟨"E", "d", rfl, rfl, rfl, rfl⟩

theorem canonical_pair : pair.Canonical :=
  canonical_set (List.forall_mem_cons.2
    ⟨canonical_ofFirst, List.forall_mem_singleton.2 canonical_ofSecond⟩)

theorem canonical_pairs : pairs.Canonical :=
  canonical_set (List.forall_mem_cons.2 ⟨canonical_pair, List.forall_mem_singleton.2
    (canonical_set (List.forall_mem_cons.2
      ⟨canonical_ofSecond, List.forall_mem_singleton.2 canonical_ofFirst⟩))⟩)

def bothEntries : Value :=
  Build.map manager 4 [(number, Build.int manager 2), (number, Build.str manager 3 "a")]

def lastEntry : Value := Build.map manager 7 [(number, Build.str manager 6 "a")]

def bothPairs : Value :=
  Build.set manager 6 [Build.set manager 2 [nullary ofFirst 0, nullary ofSecond 1],
    Build.set manager 5 [nullary ofSecond 3, nullary ofFirst 4]]

def firstPair : Value :=
  Build.set manager 10 [Build.set manager 9 [nullary ofFirst 7, nullary ofSecond 8]]

theorem written_replaced : String.ofList replaced.written = "(1:2,1:\"a\")" := by
  with_unfolding_all rfl

theorem text_bothEntries : bothEntries.text = String.ofList remaining.written := by
  with_unfolding_all rfl

theorem written_pairs : String.ofList pairs.written =
    "\x7b\x7bE::c(),E::d()\x7d,\x7bE::d(),E::c()\x7d\x7d" := by
  with_unfolding_all rfl

theorem text_bothPairs :
    bothPairs.text = String.ofList (Derivation.bracket .set [pair]).written := by
  with_unfolding_all rfl

/-- Which set comes last decides on the data type. -/
theorem ty_firstPair_ne : firstPair.ty ≠ bothPairs.ty := by
  have hfirst : firstPair.ty = .set manager.origin (.set manager.origin secondOwner) := by
    with_unfolding_all rfl
  have hboth : bothPairs.ty = .set manager.origin (.set manager.origin owner) := by
    with_unfolding_all rfl
  rw [hfirst, hboth]
  nofun

end Sample

open Sample in
/-- The type of a map bounds the number that is replaced, until the map is read again. And where
two managers made the constructors of a data type, which of its two forms is inferred depends on
elements that are collapsed. -/
theorem exists_other_type :
    (∃ v w n n', ({} : Reader).read manager 0 "(1:2,1:\"a\")" = .ok (v, n) ∧
      ({} : Reader).read manager n v.text = .ok (w, n') ∧ w.ty.sameShape v.ty = false) ∧
    mixed.Reachable ∧ ∃ v w n n', mixedReader.read manager 0
        "\x7b\x7bE::c(),E::d()\x7d,\x7bE::d(),E::c()\x7d\x7d" = .ok (v, n) ∧
      mixedReader.read manager n v.text = .ok (w, n') ∧ w.ty ≠ v.ty := by
  rw [← written_replaced, ← written_pairs]
  constructor
  · refine ⟨bothEntries, lastEntry, 5, 8, ?_, ?_, by with_unfolding_all rfl⟩
    · exact (Reader.read_written_eq_ok canonical_replaced (by decide)).2 (by with_unfolding_all rfl)
    · rw [text_bothEntries]
      exact (Reader.read_written_eq_ok canonical_remaining (by decide)).2
        (by with_unfolding_all rfl)
  · refine ⟨reachable_mixed, bothPairs, firstPair, 7, 11, ?_, ?_, ty_firstPair_ne⟩
    · exact (Reader.read_written_eq_ok canonical_pairs (by decide)).2 (by with_unfolding_all rfl)
    · rw [text_bothPairs]
      exact (Reader.read_written_eq_ok (canonical_set (List.forall_mem_singleton.2 canonical_pair))
        (by decide)).2 (by with_unfolding_all rfl)

end Session

end ValueAlgebra
