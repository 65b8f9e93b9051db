import ValueAlgebra.Ty.Identity
import ValueAlgebra.Value.Hash

/-!
# Layers of types

The outermost layer of a type has a form, names and labels, and the types directly below it for
parts. `Layer ρ` leaves open what a part is. With types for parts a layer builds a type; with
references it is the key under which a manager interns a type, compared and hashed without looking
behind the references.

## Main definitions

- `Layer`, `Layer.parts`, `Layer.mapParts`: layers and their parts
- `Layer.build`: the type that has the layer
- `Layer.sameKey`, `Layer.feed`: comparing and hashing layers over references
- `Ty.IsFrom`: the types of one manager
-/

namespace ValueAlgebra

variable {ρ σ : Type}

/-- A reference to a type. References are the same exactly if they are equal. -/
abbrev Ref := Nat

/-- The field with `f` applied to its type. -/
def Field.mapTy (f : ρ → σ) (x : Field ρ) : Field σ := ⟨f x.ty, x.label⟩

theorem BasicTy.kind_inj {b b' : BasicTy} : b.kind = b'.kind ↔ b = b' := by
  cases b <;> cases b' <;> decide

/-- A type of which only the outermost layer is given. -/
inductive Layer (ρ : Type)
  | basic (b : BasicTy)
  | tuple (fields : List (Field ρ))
  | list (elem : ρ)
  | set (elem : ρ)
  | relation (row : ρ)
  | map (key val : ρ)
  | adt (name : String) (params : List ρ)
  | constructor (owner : ρ) (name : String) (fields : List (Field ρ))
  | aliased (name : String) (target : ρ)

namespace Layer

def parts : Layer ρ → List ρ
  | basic _ => []
  | tuple fs => fs.map Field.ty
  | list e | set e | relation e => [e]
  | map k v => [k, v]
  | adt _ ps => ps
  | constructor a _ fs => a :: fs.map Field.ty
  | aliased _ t => [t]

def mapParts (f : ρ → σ) : Layer ρ → Layer σ
  | basic b => basic b
  | tuple fs => tuple (fs.map (Field.mapTy f))
  | list e => list (f e)
  | set e => set (f e)
  | relation r => relation (f r)
  | map k v => map (f k) (f v)
  | adt n ps => adt n (ps.map f)
  | constructor a n fs => constructor (f a) n (fs.map (Field.mapTy f))
  | aliased n t => aliased n (f t)

/-- The type with this layer, as a manager of the given origin makes it. -/
def build (o : Origin) : Layer Ty → Ty
  | basic b => .basic o b
  | tuple fs => .tuple o fs
  | list e => .list o e
  | set e => .set o e
  | relation r => .relation o r
  | map k v => .map o k v
  | adt n ps => .adt o n ps
  | constructor a n fs => .constructor o a n fs
  | aliased n t => .aliased o n t

def kind : Layer ρ → Kind
  | basic b => b.kind
  | tuple _ => .tuple
  | list _ => .list
  | set _ => .set
  | relation _ => .relation
  | map _ _ => .map
  | adt _ _ => .dataType
  | constructor _ _ _ => .constructor
  | aliased _ _ => .aliased

/-! ### Parts -/

theorem mapParts_congr {f g : ρ → σ} {n : Layer ρ} (h : ∀ p ∈ n.parts, f p = g p) :
    n.mapParts f = n.mapParts g := by
  have hfields {fs : List (Field ρ)} (h : ∀ p ∈ fs.map Field.ty, f p = g p) :
      fs.map (Field.mapTy f) = fs.map (Field.mapTy g) :=
    List.map_congr_left fun x hx => by
      rw [Field.mapTy, Field.mapTy, h x.ty (List.mem_map_of_mem hx)]
  cases n with
  | tuple fs => exact congrArg tuple (hfields h)
  | adt name ps => exact congrArg (adt name) (List.map_congr_left h)
  | constructor a name fs =>
    obtain ⟨ha, hfs⟩ := List.forall_mem_cons.1 h
    rw [mapParts, mapParts, ha, hfields hfs]
  | _ => simp_all [parts, mapParts]

theorem parts_mapParts (f : ρ → σ) (n : Layer ρ) : (n.mapParts f).parts = n.parts.map f := by
  cases n <;> simp [mapParts, parts, Field.mapTy, Function.comp_def]

/-- A map that keeps the elements of two lists apart keeps the lists apart. -/
theorem eq_of_map_eq {f : ρ → σ} {l l' : List ρ} (hinj : ∀ p ∈ l, ∀ q ∈ l', f p = f q → p = q)
    (h : l.map f = l'.map f) : l = l' := by
  induction l generalizing l' with
  | nil => exact (List.map_eq_nil_iff.1 h.symm).symm
  | cons x l ih =>
    cases l' with
    | nil => cases h
    | cons y l' =>
      obtain ⟨hxy, hl⟩ := List.cons.inj h
      have hll : l = l' := ih (fun p hp q hq => hinj p (.tail _ hp) q (.tail _ hq)) hl
      rw [hinj x (.head _) y (.head _) hxy, hll]

/-- So does a map that keeps the parts of two layers apart with the layers. -/
theorem eq_of_mapParts_eq {f : ρ → σ} {n n' : Layer ρ}
    (hinj : ∀ p ∈ n.parts, ∀ q ∈ n'.parts, f p = f q → p = q)
    (h : n.mapParts f = n'.mapParts f) : n = n' := by
  have hfields {fs gs : List (Field ρ)}
      (hinj : ∀ p ∈ fs.map Field.ty, ∀ q ∈ gs.map Field.ty, f p = f q → p = q)
      (h : fs.map (Field.mapTy f) = gs.map (Field.mapTy f)) : fs = gs := by
    refine eq_of_map_eq (fun x hx y hy hxy => ?_) h
    obtain ⟨t, l⟩ := x
    obtain ⟨u, k⟩ := y
    obtain ⟨htu, rfl⟩ := Field.mk.inj hxy
    rw [hinj t (List.mem_map_of_mem hx) u (List.mem_map_of_mem hy) htu]
  cases n with
  | tuple fs =>
    cases n' with
    | tuple gs => rw [hfields hinj (tuple.inj h)]
    | _ => cases h
  | adt name ps =>
    cases n' with
    | adt name' qs =>
      have hps : ps = qs := eq_of_map_eq hinj (adt.inj h).2
      rw [(adt.inj h).1, hps]
    | _ => cases h
  | constructor a name fs =>
    cases n' with
    | constructor b name' gs =>
      obtain ⟨hab, hname, hfs⟩ := constructor.inj h
      rw [hinj a (.head _) b (.head _) hab, hname,
        hfields (fun p hp q hq => hinj p (.tail _ hp) q (.tail _ hq)) hfs]
    | _ => cases h
  | basic b =>
    cases n' with
    | basic b' => rw [basic.inj h]
    | _ => cases h
  | list e =>
    cases n' with
    | list e' => rw [hinj e (.head _) e' (.head _) (list.inj h)]
    | _ => cases h
  | set e =>
    cases n' with
    | set e' => rw [hinj e (.head _) e' (.head _) (set.inj h)]
    | _ => cases h
  | relation r =>
    cases n' with
    | relation r' => rw [hinj r (.head _) r' (.head _) (relation.inj h)]
    | _ => cases h
  | map k v =>
    cases n' with
    | map k' v' =>
      obtain ⟨hk, hv⟩ := map.inj h
      rw [hinj k (.head _) k' (.head _) hk, hinj v (.tail _ (.head _)) v' (.tail _ (.head _)) hv]
    | _ => cases h
  | aliased name t =>
    cases n' with
    | aliased name' t' =>
      obtain ⟨hname, ht⟩ := aliased.inj h
      rw [hname, hinj t (.head _) t' (.head _) ht]
    | _ => cases h

/-! ### Types -/

theorem build_inj {o o' : Origin} {n n' : Layer Ty} :
    n.build o = n'.build o' ↔ o = o' ∧ n = n' := by
  cases n <;> cases n' <;> simp [build]

/-- Forgetting origins goes layer by layer. -/
theorem shape_build (o : Origin) (n : Layer Ty) :
    (n.build o).shape = (n.mapParts Ty.shape).build 0 := by
  have hfield : Field.mapTy Ty.shape = fun f => ⟨f.ty.shape, f.label⟩ := rfl
  cases n <;> simp [build, mapParts, Ty.shape, Ty.shapeFields_eq_map, Ty.shapes_eq_map, hfield]

/-! ### Keys of the interning table -/

section Keys

variable {n n' : Layer Ref}

def sameTypes (ts us : List Ref) : Bool :=
  ts.length == us.length && (ts.zip us).all fun (t, u) => t == u

def sameFields (fs gs : List (Field Ref)) : Bool :=
  fs.length == gs.length && (fs.zip gs).all fun (x, y) => x.ty == y.ty && x.label == y.label

/-- Whether two layers over references are the same, part by part. -/
def sameKey : Layer Ref → Layer Ref → Bool
  | tuple fs, tuple gs => sameFields fs gs
  | list e, list e' | set e, set e' | relation e, relation e' => e == e'
  | map k v, map k' v' => k == k' && v == v'
  | adt n ps, adt n' qs => n == n' && sameTypes ps qs
  | constructor a n fs, constructor b n' gs => a == b && n == n' && sameFields fs gs
  | aliased n t, aliased n' t' => n == n' && t == t'
  -- Forms without parts, or different forms.
  | n, n' => n.kind == n'.kind

theorem sameTypes_iff : ∀ ts us : List Ref, sameTypes ts us = true ↔ ts = us
  | [], [] => by simp [sameTypes]
  | [], _ :: _ | _ :: _, [] => by simp [sameTypes]
  | t :: ts, u :: us => by
    rw [List.cons.injEq, ← sameTypes_iff ts us]
    simp [sameTypes]
    grind

theorem sameFields_iff : ∀ fs gs : List (Field Ref), sameFields fs gs = true ↔ fs = gs
  | [], [] => by simp [sameFields]
  | [], _ :: _ | _ :: _, [] => by simp [sameFields]
  | ⟨t, l⟩ :: fs, ⟨u, k⟩ :: gs => by
    rw [List.cons.injEq, Field.mk.injEq, ← sameFields_iff fs gs]
    simp [sameFields]
    grind

theorem sameKey_iff : n.sameKey n' = true ↔ n = n' := by
  cases n with
  | basic b =>
    cases n' with
    | basic b' => simp [sameKey, kind, BasicTy.kind_inj]
    | _ => cases b <;> simp [sameKey, kind, BasicTy.kind]
  | _ =>
    cases n' with
    | basic b => cases b <;> simp [sameKey, kind, BasicTy.kind]
    | _ => simp [sameKey, kind, sameTypes_iff, sameFields_iff, and_assoc]

open Chunk in
def feedFields (fs : List (Field Ref)) : List Chunk :=
  word fs.length.toUInt64 :: fs.flatMap fun f => word f.ty.toUInt64 :: ofName? f.label

open Chunk in
/-- What of a layer goes into its hash. -/
def feed : Layer Ref → List Chunk
  | basic b => [.kind b.kind]
  | tuple fs => .kind .tuple :: feedFields fs
  | list e => [.kind .list, word e.toUInt64]
  | set e => [.kind .set, word e.toUInt64]
  | relation r => [.kind .relation, word r.toUInt64]
  | map k v => [.kind .map, word k.toUInt64, word v.toUInt64]
  | adt n ps => .kind .dataType :: text n :: ps.map fun p => word p.toUInt64
  | constructor a n fs => .kind .constructor :: word a.toUInt64 :: text n :: feedFields fs
  | aliased n t => [.kind .aliased, text n, word t.toUInt64]

end Keys

end Layer

/-! ### Types of one manager -/

namespace Ty

/-- Every layer of the type has the given origin. -/
inductive IsFrom (o : Origin) : Ty → Prop
  | build {n : Layer Ty} (h : ∀ t ∈ n.parts, IsFrom o t) : IsFrom o (n.build o)

namespace IsFrom

variable {o : Origin} {t u : Ty}

theorem eq_of_shape_eq (ht : IsFrom o t) (hu : IsFrom o u) (h : t.shape = u.shape) : t = u := by
  induction ht generalizing u with
  | build ht ih =>
    cases hu with
    | build hu =>
      rw [Layer.shape_build, Layer.shape_build] at h
      have hlayers := (Layer.build_inj.1 h).2
      rw [Layer.eq_of_mapParts_eq (fun p hp q hq => ih p hp (hu q hq)) hlayers]

/-- For types of one manager identity is structural equality. -/
theorem eq_iff_sameShape (ht : IsFrom o t) (hu : IsFrom o u) : t = u ↔ t.sameShape u = true := by
  rw [sameShape_iff]
  exact ⟨fun h => h ▸ rfl, ht.eq_of_shape_eq hu⟩

end IsFrom

end Ty

end ValueAlgebra
