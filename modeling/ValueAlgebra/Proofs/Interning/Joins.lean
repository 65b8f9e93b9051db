import ValueAlgebra.Proofs.Interning.Arena
import ValueAlgebra.Proofs.Keeps
import ValueAlgebra.Ty.Lub

/-!
# Joining by reference

A comparison follows two references down to their parts and adds nothing to the arena. A join
interns what it builds of the joins of the parts. References are greater than those of their parts,
and by induction on them both come to the same as on the types that the references stand for.

## Main definitions

- `Arena.Leads`: what a program that interns comes to
- `Arena.isSubtypeOf`: comparing references
- `Arena.lub`: the join of two references
- `Arena.JoinsBelow`: a program that joins references as it should, up to a bound on their sum
-/

namespace ValueAlgebra

namespace Arena

variable {α β : Type} {a : Arena} {n : Layer Ref} {t u : Ref}

/-- From `a` the program succeeds, having interned some types, and `P` holds of its result and of
the arena it leaves. -/
def Leads (a : Arena) (x : Interning α) (P : α → Arena → Prop) : Prop :=
  ∃ r a', x a = .ok r a' ∧ a.Grows a' ∧ P r a'

namespace Leads

variable {x : Interning α} {P Q : α → Arena → Prop}

protected theorem pure (h : a.Canonical) {r : α} (hr : P r a) : a.Leads (pure r) P :=
  ⟨r, a, rfl, .refl h, hr⟩

protected theorem bind {f : α → Interning β} {Q : β → Arena → Prop} (hx : a.Leads x P)
    (hf : ∀ r a', a.Grows a' → P r a' → a'.Leads (f r) Q) : a.Leads (x >>= f) Q := by
  obtain ⟨r, a', hxa, hgrows, hP⟩ := hx
  obtain ⟨b, a'', hfa, hgrows', hQ⟩ := hf r a' hgrows hP
  exact ⟨b, a'', (bind_apply_of_ok hxa).trans hfa, hgrows.trans hgrows', hQ⟩

theorem get_bind {f : Arena → Interning α} (h : a.Leads (f a) P) : a.Leads (get >>= f) P := h

theorem imp (hx : a.Leads x P) (h : ∀ r a', P r a' → Q r a') : a.Leads x Q := by
  obtain ⟨r, a', hxa, hgrows, hP⟩ := hx
  exact ⟨r, a', hxa, hgrows, h r a' hP⟩

/-- Results over references that read as expected when they come do so after the last has come. -/
theorem mapM {γ : Type} (ref : β → Ref) (read : (Ref → Ty) → β → γ) {c : α → γ}
    (hread : ∀ y f g, f (ref y) = g (ref y) → read f y = read g y) {f : α → Interning β}
    {l : List α} (h : a.Canonical)
    (hf : ∀ x ∈ l, ∀ a', a.Grows a' →
      a'.Leads (f x) fun y a'' => a''.Holds (ref y) ∧ read a''.read y = c x) :
    a.Leads (l.mapM f) fun ys a' =>
      (∀ y ∈ ys, a'.Holds (ref y)) ∧ ys.map (read a'.read) = l.map c := by
  induction l generalizing a with
  | nil => exact .pure h ⟨List.forall_mem_nil _, rfl⟩
  | cons x l ih =>
    rw [List.mapM_cons]
    apply Leads.bind (hf x (.head _) a (.refl h))
    intro y a' hg hy
    apply Leads.bind (ih hg.canonical fun x' hx' a'' hg' => hf x' (.tail _ hx') a'' (hg.trans hg'))
    intro ys a'' hg' hys
    refine .pure hg'.canonical ⟨List.forall_mem_cons.2 ⟨hg'.holds hy.1, hys.1⟩, ?_⟩
    rw [List.map_cons, List.map_cons, hys.2, hread y _ _ (hg'.read_eq hy.1), hy.2]

end Leads

/-- Both sides of a decision go the same way. -/
theorem Leads.ite {x y : Interning Ref} {s t : Ty} {p q : Prop} [Decidable p] [Decidable q]
    (hpq : p ↔ q) (hx : p → a.Leads x fun r a' => a'.Reads r s)
    (hy : ¬p → a.Leads y fun r a' => a'.Reads r t) :
    a.Leads (if p then x else y) fun r a' => a'.Reads r (if q then s else t) := by
  by_cases hp : p
  · rw [if_pos hp, if_pos (hpq.1 hp)]
    exact hx hp
  · rw [if_neg hp, if_neg fun hq => hp (hpq.2 hq)]
    exact hy hp

/-- Asking for a layer gives the type with this layer. -/
theorem leads_intern (h : a.Canonical) (hn : ∀ p ∈ n.parts, a.Holds p) :
    a.Leads (intern n) fun r a' =>
      a'.Reads r ((n.mapParts a.read).build a.manager.origin) := by
  obtain ⟨r, a', hrun, hgrows, hlayer⟩ := intern_apply h hn
  refine ⟨r, a', hrun, hgrows, holds_of_layer? hlayer, ?_⟩
  rw [hgrows.canonical.read_eq hlayer, hgrows.manager,
    Layer.mapParts_congr fun p hp => hgrows.read_eq (hn p hp)]

/-- The parts may have been looked up before the arena grew. -/
theorem Grows.leads_intern {a' : Arena} {l : Layer Ty} (hg : a.Grows a')
    (hn : ∀ p ∈ n.parts, a'.Holds p) (hl : n.mapParts a'.read = l) :
    a'.Leads (intern n) fun r a'' => a''.Reads r (l.build a.manager.origin) := by
  rw [← hl, ← hg.manager]
  exact Arena.leads_intern hg.canonical hn

/-! ### Comparing -/

/-- Whether the layer of `t`, given with the tests of its parts, is below the reference `u`, which
is behind all aliases. -/
def layerBelow (a : Arena) (t : Ref) (n : Layer (Ref → Bool)) (u : Ref) : Bool :=
  match n, a.layer? u with
  | .aliased _ isBelow, _ => isBelow u
  | _, some (.basic .value) => true
  | .basic .void, _ => true
  | .basic b, some (.basic c) => b == c
  | .list isBelow, some (.list e) => isBelow e
  | .set isBelow, some (.set e) | .set isBelow, some (.relation e)
  | .relation isBelow, some (.set e) | .relation isBelow, some (.relation e) => isBelow e
  | .map isBelow isBelow', some (.map k v) => isBelow k && isBelow' v
  | .tuple fs, some (.tuple gs) =>
    fs.length == gs.length && (fs.zip gs).all fun (f, g) => f.ty g.ty
  | .adt n ps, some (.adt n' qs) =>
    n == n' && ps.length == qs.length && (ps.zip qs).all fun (isBelow, q) => isBelow q
  | .constructor isBelow _ _, some (.adt ..) => isBelow u
  | .constructor .., some (.constructor ..) => (a.read t).sameShape (a.read u)
  | _, _ => false

/-- Whether `t` stands for a subtype of what `u` stands for: behind their aliases the two are the
same reference, or the layer of the one is below the other. -/
def isSubtypeOf (a : Arena) (t u : Ref) : Bool :=
  a.fold (fun t n u => a.unalias t == a.unalias u || a.layerBelow t n (a.unalias u)) t u

theorem Canonical.isSubtypeOf_eq_or (h : a.Canonical) (hn : a.layer? t = some n) :
    a.isSubtypeOf t u = (a.unalias t == a.unalias u ||
      a.layerBelow t (n.mapParts a.isSubtypeOf) (a.unalias u)) := by
  rw [isSubtypeOf, h.fold_eq hn]
  rfl

/-- Two lists compare alike if their members do. -/
theorem sameLength_and_all_congr {α' α'' β' : Type} {f : α → α'} {g : α → α''} {k : β → β'}
    {p : α' → β → Bool} {q : α'' → β' → Bool} {xs : List α} {ys : List β}
    (h : ∀ x ∈ xs, ∀ y ∈ ys, p (f x) y = q (g x) (k y)) :
    ((xs.map f).length == ys.length && ((xs.map f).zip ys).all fun (x, y) => p x y) =
      ((xs.map g).length == (ys.map k).length &&
        ((xs.map g).zip (ys.map k)).all fun z => q z.1 z.2) := by
  have hall : (((xs.map f).zip ys).all fun (x, y) => p x y) =
      ((xs.map g).zip (ys.map k)).all fun z => q z.1 z.2 := by
    rw [List.zip_map_left, List.zip_map, List.all_map, List.all_map, Bool.eq_iff_iff,
      List.all_eq_true, List.all_eq_true]
    apply forall₂_congr
    intro z hz
    have hz := List.of_mem_zip hz
    exact iff_of_eq (congrArg (· = true) (h z.1 hz.1 z.2 hz.2))
  rw [List.length_map, List.length_map, List.length_map, hall]

/-- References compare as the types that they stand for. -/
theorem Canonical.isSubtypeOf_eq (h : a.Canonical) (ht : a.Holds t) (hu : a.Holds u) :
    a.isSubtypeOf t u = (a.read t).isSubtypeOf (a.read u) := by
  induction t using Nat.strongRecOn generalizing u with
  | ind t ih =>
    obtain ⟨n, hn⟩ := holds_iff.1 ht
    obtain ⟨k, hk⟩ := holds_iff.1 (h.reads_unalias hu).holds
    have hread : (a.read u).unalias = (k.mapParts a.read).build a.manager.origin := by
      rw [← (h.reads_unalias hu).read_eq, h.read_eq hk]
    have hpart {p q : Ref} (hp : p ∈ n.parts) (hq : a.Holds q) :
        a.isSubtypeOf p q = (a.read p).isSubtypeOf (a.read q) :=
      ih p (h.parts_lt t n hn p hp) (h.holds_of_mem_parts hn hp) hq
    rw [h.isSubtypeOf_eq_or hn]
    by_cases heq : a.unalias t = a.unalias u
    · have hsame : (a.read t).unalias = (a.read u).unalias := by
        rw [← (h.reads_unalias ht).read_eq, heq, (h.reads_unalias hu).read_eq]
      rw [heq, beq_self_eq_true, Bool.true_or, Ty.isSubtypeOf, ← hsame, Ty.isBelow_unalias]
    rw [beq_eq_false_iff_ne.2 heq, Bool.false_or, Ty.isSubtypeOf, hread, h.read_eq hn]
    unfold layerBelow
    rw [hk]
    cases n with
    | aliased name target =>
      show a.isSubtypeOf target (a.unalias u) = Ty.isBelow (.aliased _ name _) _
      rw [hpart (.head _) (h.reads_unalias hu).holds, (h.reads_unalias hu).read_eq,
        Ty.isBelow_aliased, Ty.isSubtypeOf, Ty.unalias_unalias, hread]
    | basic b =>
      cases k with
      | basic c => cases b <;> cases c <;> rfl
      | _ => cases b <;> rfl
    | list e =>
      cases k with
      | basic c => cases c <;> rfl
      | list e' => exact hpart (.head _) (h.holds_of_mem_parts hk (.head _))
      | _ => rfl
    | set e =>
      cases k with
      | basic c => cases c <;> rfl
      | set e' | relation e' => exact hpart (.head _) (h.holds_of_mem_parts hk (.head _))
      | _ => rfl
    | relation e =>
      cases k with
      | basic c => cases c <;> rfl
      | set e' | relation e' => exact hpart (.head _) (h.holds_of_mem_parts hk (.head _))
      | _ => rfl
    | map key val =>
      cases k with
      | basic c => cases c <;> rfl
      | map key' val' =>
        have hkey := hpart (.head _) (h.holds_of_mem_parts hk (.head _))
        have hval := hpart (.tail _ (.head _)) (h.holds_of_mem_parts hk (.tail _ (.head _)))
        exact congrArg₂ and hkey hval
      | _ => rfl
    | tuple fs =>
      cases k with
      | basic c => cases c <;> rfl
      | tuple gs =>
        show _ = Ty.fieldsBelow _ _
        rw [Ty.fieldsBelow_eq_all]
        apply sameLength_and_all_congr (p := fun (f : Field (Ref → Bool)) (g : Field Ref) =>
          f.ty g.ty) (q := fun (f g : Field Ty) => f.ty.isSubtypeOf g.ty)
        intro f hf g hg
        exact hpart (List.mem_map_of_mem hf) (h.holds_of_mem_parts hk (List.mem_map_of_mem hg))
      | _ => rfl
    | adt name ps =>
      cases k with
      | basic c => cases c <;> rfl
      | adt name' qs =>
        show (name == name' && _ && _) = (name == name' && Ty.allBelow _ _)
        rw [Ty.allBelow_eq_all, Bool.and_assoc]
        congr 1
        apply sameLength_and_all_congr (p := fun (isBelow : Ref → Bool) q => isBelow q)
          (q := Ty.isSubtypeOf)
        intro p hp q hq
        exact hpart hp (h.holds_of_mem_parts hk hq)
      | _ => rfl
    | constructor owner name fs =>
      cases k with
      | basic c => cases c <;> rfl
      | adt name' qs =>
        show a.isSubtypeOf owner (a.unalias u) = (a.read owner).isBelow _
        rw [hpart (.head _) (h.reads_unalias hu).holds, Ty.isSubtypeOf, h.read_eq hk]
        rfl
      | constructor owner' name' gs =>
        show Ty.sameShape (a.read t) (a.read (a.unalias u)) = Ty.sameShape _ _
        rw [h.read_eq hn, h.read_eq hk]
        rfl
      | _ => rfl

/-! ### Joining -/

/-- The set with elements of the type that `e` stands for. -/
def internSet (e : Ref) : Interning Ref := do
  if ((← get).read e).isTuple then intern (.relation e) else intern (.set e)

/-- Joins what is behind all aliases of `t` and `u`, given how to join parts. -/
def joinLayers (join : Ref → Ref → Interning Ref) (t u : Ref) : Interning Ref := do
  let a ← get
  match a.layer? t, a.layer? u with
  | some (.tuple fs), some (.tuple gs) =>
    if fs.length = gs.length then
      intern (.tuple (← (fs.zip gs).mapM fun (f, g) =>
        return ⟨← join f.ty g.ty, Ty.commonLabel f.label g.label⟩))
    else intern (.basic .value)
  | some (.list e), some (.list e') => do intern (.list (← join e e'))
  | some (.set e), some (.set e') | some (.set e), some (.relation e')
  | some (.relation e), some (.set e') | some (.relation e), some (.relation e') => do
    internSet (← join e e')
  | some (.map k v), some (.map k' v') => do intern (.map (← join k k') (← join v v'))
  | some (.constructor owner _ _), some (.constructor owner' _ _) => join owner owner'
  | some (.constructor owner _ _), some (.adt ..) => join owner u
  | some (.adt ..), some (.constructor owner _ _) => join owner t
  | some (.adt n ps), some (.adt n' qs) =>
    if n = n' ∧ ps.length = qs.length then
      intern (.adt n (← (ps.zip qs).mapM fun (p, q) => join p q))
    else intern (.basic .value)
  | _, _ => intern (.basic .value)

/-- The join of references with a sum below the bound. -/
def lubWithin : Nat → Ref → Ref → Interning Ref
  | 0, t, _ => return t
  | bound + 1, t, u => do
    let a ← get
    if a.isSubtypeOf t u then return u
    else if a.isSubtypeOf u t then return t
    else joinLayers (lubWithin bound) (a.unalias t) (a.unalias u)

/-- The join of two references. -/
def lub (t u : Ref) : Interning Ref := lubWithin (t + u + 1) t u

theorem leads_internSet (h : a.Canonical) (ht : a.Holds t) :
    a.Leads (internSet t) fun r a' => a'.Reads r (a.manager.set (a.read t)) := by
  have hparts := List.forall_mem_singleton.2 ht
  apply Leads.get_bind
  apply Leads.ite Iff.rfl
  · exact fun _ => leads_intern (n := .relation t) h hparts
  · exact fun _ => leads_intern (n := .set t) h hparts

/-- However the arena has grown, the program joins parts of the two layers as the types that they
stand for. -/
def JoinsParts (a : Arena) (join : Ref → Ref → Interning Ref) (n k : Layer Ref) : Prop :=
  ∀ p ∈ n.parts, ∀ q ∈ k.parts, ∀ a', a.Grows a' →
    a'.Leads (join p q) fun r a'' => a''.Reads r ((a.read p).lub a.manager (a.read q))

namespace JoinsParts

variable {join : Ref → Ref → Interning Ref}

theorem leads_set {k : Layer Ref} (hjoin : a.JoinsParts join n k) (h : a.Canonical) {p q : Ref}
    (hp : p ∈ n.parts) (hq : q ∈ k.parts) :
    a.Leads (join p q >>= internSet) fun r a' =>
      a'.Reads r (a.manager.set ((a.read p).lub a.manager (a.read q))) := by
  apply (hjoin p hp q hq a (.refl h)).bind
  intro e a' hg he
  rw [← he.read_eq, ← hg.manager]
  exact leads_internSet hg.canonical he.holds

theorem leads_fields {fs gs : List (Field Ref)} (hjoin : a.JoinsParts join (.tuple fs) (.tuple gs))
    (h : a.Canonical) :
    a.Leads ((fs.zip gs).mapM fun (f, g) =>
        return ⟨← join f.ty g.ty, Ty.commonLabel f.label g.label⟩) fun hs a' =>
      (∀ f ∈ hs, a'.Holds f.ty) ∧ hs.map (Field.mapTy a'.read) =
        Ty.lubFields a.manager (fs.map (Field.mapTy a.read)) (gs.map (Field.mapTy a.read)) := by
  rw [Ty.lubFields_eq_zipWith, List.zipWith_map, ← List.map_uncurry_zip_eq_zipWith]
  apply Leads.mapM Field.ty Field.mapTy _ h
  · intro z hz a' hg
    have hz := List.of_mem_zip hz
    apply (hjoin _ (List.mem_map_of_mem hz.1) _ (List.mem_map_of_mem hz.2) a' hg).bind
    intro r a'' hg' hr
    refine .pure hg'.canonical ⟨hr.holds, ?_⟩
    rw [Field.mapTy, hr.read_eq]
    rfl
  · intro y f g hfg
    rw [Field.mapTy, Field.mapTy, hfg]

theorem leads_params {name name' : String} {ps qs : List Ref}
    (hjoin : a.JoinsParts join (.adt name ps) (.adt name' qs)) (h : a.Canonical) :
    a.Leads ((ps.zip qs).mapM fun (p, q) => join p q) fun rs a' =>
      (∀ r ∈ rs, a'.Holds r) ∧
        rs.map a'.read = Ty.lubAll a.manager (ps.map a.read) (qs.map a.read) := by
  rw [Ty.lubAll_eq_zipWith, List.zipWith_map, ← List.map_uncurry_zip_eq_zipWith]
  apply Leads.mapM id (fun read r => read r) (fun _ _ _ hread => hread) h
  intro z hz a' hg
  have hz := List.of_mem_zip hz
  apply (hjoin z.1 hz.1 z.2 hz.2 a' hg).imp
  intro r a'' hr
  exact ⟨hr.holds, hr.read_eq⟩

end JoinsParts

/-- The program joins references as the types that they stand for, if their sum is below the
bound. -/
def JoinsBelow (join : Ref → Ref → Interning Ref) (bound : Nat) : Prop :=
  ∀ a : Arena, a.Canonical → ∀ t u, a.Holds t → a.Holds u → t + u < bound →
    a.Leads (join t u) fun r a' => a'.Reads r ((a.read t).lub a.manager (a.read u))

namespace JoinsBelow

variable {join : Ref → Ref → Interning Ref} {bound : Nat}

/-- Parts come before what they are parts of. -/
theorem joinsParts (hjoin : JoinsBelow join bound) (h : a.Canonical) (hle : t + u ≤ bound)
    {k : Layer Ref} (hn : a.layer? t = some n) (hk : a.layer? u = some k) :
    a.JoinsParts join n k := by
  intro p hp q hq a' hg
  have hholds := h.holds_of_mem_parts hn hp
  have hholds' := h.holds_of_mem_parts hk hq
  have hlt := Nat.add_lt_add (h.parts_lt t n hn p hp) (h.parts_lt u k hk q hq)
  rw [← hg.read_eq hholds, ← hg.read_eq hholds', ← hg.manager]
  exact hjoin a' hg.canonical p q (hg.holds hholds) (hg.holds hholds') (Nat.lt_of_lt_of_le hlt hle)

/-- The owner of a constructor is joined with a data type as a whole, so that one side gets
smaller. -/
theorem leads_owner (hjoin : JoinsBelow join bound) (h : a.Canonical) (hle : t + u ≤ bound)
    {owner : Ref} {name : String} {fs : List (Field Ref)}
    (hn : a.layer? t = some (.constructor owner name fs)) {w : Ty} (hu : a.Reads u w) :
    a.Leads (join owner u) fun r a' => a'.Reads r ((a.read owner).lub a.manager w) := by
  have hlt := Nat.add_lt_add_right (h.parts_lt t _ hn owner (.head _)) u
  rw [← hu.read_eq]
  exact hjoin a h owner u (h.holds_of_mem_parts hn (.head _)) hu.holds (Nat.lt_of_lt_of_le hlt hle)

/-- Types of which none is above the other are joined layer by layer. -/
theorem leads_joinLayers (hjoin : JoinsBelow join bound) (h : a.Canonical) (ht : a.Holds t)
    (hu : a.Holds u) (hle : t + u ≤ bound) (hbelow : ¬(a.read t).isSubtypeOf (a.read u) = true)
    (habove : ¬(a.read u).isSubtypeOf (a.read t) = true) :
    a.Leads (joinLayers join (a.unalias t) (a.unalias u)) fun r a' =>
      a'.Reads r ((a.read t).lub a.manager (a.read u)) := by
  have hreadt := h.reads_unalias ht
  have hreadu := h.reads_unalias hu
  have hsum : a.unalias t + a.unalias u ≤ bound :=
    Nat.le_trans (Nat.add_le_add (h.unalias_le ht) (h.unalias_le hu)) hle
  obtain ⟨n, hn⟩ := holds_iff.1 hreadt.holds
  obtain ⟨k, hk⟩ := holds_iff.1 hreadu.holds
  have hparts : a.JoinsParts join n k := hjoin.joinsParts h hsum hn hk
  have hvalue : a.Leads (intern (.basic .value)) fun r a' => a'.Reads r a.manager.value :=
    leads_intern (n := .basic .value) h (List.forall_mem_nil _)
  have htn : (a.read t).unalias = (n.mapParts a.read).build a.manager.origin := by
    rw [← hreadt.read_eq, h.read_eq hn]
  have huk : (a.read u).unalias = (k.mapParts a.read).build a.manager.origin := by
    rw [← hreadu.read_eq, h.read_eq hk]
  rw [Ty.lub, if_neg hbelow, if_neg habove]
  apply Leads.get_bind
  rw [hn, hk]
  generalize (a.read t).unalias = t' at *
  generalize (a.read u).unalias = u' at *
  subst htn huk
  -- Layers of unlike forms have only `value` above them.
  cases n with
  | tuple fs =>
    cases k with
    | tuple gs =>
      refine Leads.ite (by rw [List.length_map, List.length_map]) (fun _ => ?_) fun _ => hvalue
      apply (hparts.leads_fields h).bind
      intro hs a' hg hhs
      exact hg.leads_intern (n := .tuple hs) (List.forall_mem_map.2 hhs.1)
        (congrArg Layer.tuple hhs.2)
    | _ => exact hvalue
  | list e =>
    cases k with
    | list e' =>
      apply (hparts e (.head _) e' (.head _) a (.refl h)).bind
      intro r a' hg hr
      exact hg.leads_intern (n := .list r) (List.forall_mem_singleton.2 hr.holds)
        (congrArg Layer.list hr.read_eq)
    | _ => exact hvalue
  | set e =>
    cases k with
    | set e' | relation e' => exact hparts.leads_set h (.head _) (.head _)
    | _ => exact hvalue
  | relation e =>
    cases k with
    | set e' | relation e' => exact hparts.leads_set h (.head _) (.head _)
    | _ => exact hvalue
  | map key val =>
    cases k with
    | map key' val' =>
      apply (hparts key (.head _) key' (.head _) a (.refl h)).bind
      intro r a' hg hr
      apply (hparts val (.tail _ (.head _)) val' (.tail _ (.head _)) a' hg).bind
      intro s a'' hg' hs
      have hr := hg'.reads hr
      refine (hg.trans hg').leads_intern (n := .map r s) ?_
        (congrArg₂ Layer.map hr.read_eq hs.read_eq)
      exact List.forall_mem_cons.2 ⟨hr.holds, List.forall_mem_singleton.2 hs.holds⟩
    | _ => exact hvalue
  | constructor owner name fs =>
    cases k with
    | constructor owner' name' gs => exact hparts owner (.head _) owner' (.head _) a (.refl h)
    | adt name' qs => exact hjoin.leads_owner h hsum hn hreadu
    | _ => exact hvalue
  | adt name ps =>
    cases k with
    | constructor owner name' gs =>
      rw [Nat.add_comm] at hsum
      exact hjoin.leads_owner h hsum hk hreadt
    | adt name' qs =>
      refine Leads.ite (by rw [List.length_map, List.length_map]) (fun _ => ?_) fun _ => hvalue
      apply (hparts.leads_params h).bind
      intro rs a' hg hrs
      exact hg.leads_intern (n := .adt name rs) hrs.1 (congrArg (Layer.adt name) hrs.2)
    | _ => exact hvalue
  | _ => cases k <;> exact hvalue

end JoinsBelow

/-- References with a sum below the bound are joined as the types that they stand for. -/
theorem joinsBelow_lubWithin (bound : Nat) : JoinsBelow (lubWithin bound) bound := by
  induction bound with
  | zero =>
    intro a _ t u _ _ hlt
    exact absurd hlt (Nat.not_lt_zero _)
  | succ bound ih =>
    intro a h t u ht hu hlt
    apply Leads.get_bind
    rw [h.isSubtypeOf_eq ht hu, h.isSubtypeOf_eq hu ht]
    by_cases hbelow : (a.read t).isSubtypeOf (a.read u) = true
    · rw [if_pos hbelow, Ty.lub, if_pos hbelow]
      exact .pure h ⟨hu, rfl⟩
    rw [if_neg hbelow]
    by_cases habove : (a.read u).isSubtypeOf (a.read t) = true
    · rw [if_pos habove, Ty.lub, if_neg hbelow, if_pos habove]
      exact .pure h ⟨ht, rfl⟩
    rw [if_neg habove]
    exact ih.leads_joinLayers h ht hu (Nat.le_of_lt_succ hlt) hbelow habove

/-- References are joined as the types that they stand for. -/
theorem leads_lub (h : a.Canonical) (ht : a.Holds t) (hu : a.Holds u) :
    a.Leads (lub t u) fun r a' => a'.Reads r ((a.read t).lub a.manager (a.read u)) :=
  joinsBelow_lubWithin (t + u + 1) a h t u ht hu (Nat.lt_succ_self _)

end Arena

end ValueAlgebra
