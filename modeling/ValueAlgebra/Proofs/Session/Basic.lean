import ValueAlgebra.Build.Make
import ValueAlgebra.Codec.Reader
import ValueAlgebra.Proofs.Store.Reachable
import ValueAlgebra.Proofs.Value.Parts

/-!
# Sessions

A session is what a program holds after any calls in any order: the values it was given, writers
that may be open or spent, and the next free cell. A call may use every value the program holds
and every part of one, any manager, and any type and store that managers and declarations make.

## Main definitions

- `Session`: values, writers and the next free cell
- `Session.Makes`: the values that one call makes of those at hand
- `Session.Step`: one call, also one that fails in the middle of a writer's items
- `Session.Reachable`: the sessions of all programs
-/

namespace ValueAlgebra

/-- A writer of some sort. -/
inductive AnyWriter
  | tuple (w : Writer TupleBuffer)
  | list (w : Writer ListBuffer)
  | set (w : Writer SetBuffer)
  | map (w : Writer MapBuffer)

structure Session where
  next : Cell := 0
  values : List Value := []
  writers : List AnyWriter := []

namespace Session

/-- The value is held, or is part of one that is. -/
def Has (s : Session) (v : Value) : Prop := ∃ w ∈ s.values, v.Within w

/-- Both sides of the entry are held. -/
def HasEntry (s : Session) (e : Value × Value) : Prop := s.Has e.1 ∧ s.Has e.2

/-- The values that a call other than reading makes. Each is stored in the next free cell, if it
needs storage of its own. -/
inductive Makes (s : Session) : Value → Prop
  | int (m : Manager) (n : Int64) : Makes s (Build.int m n)
  | double (m : Manager) (d : Double) : Makes s (Build.double m d)
  | bool (m : Manager) (b : Bool) : Makes s (Build.bool m b)
  | str (m : Manager) (t : String) : Makes s (Build.str m s.next t)
  | loc (m : Manager) (path : String) (span : Span) : Makes s (Build.loc m s.next path span)
  | tuple (m : Manager) {items : List Value} (h : ∀ v ∈ items, s.Has v) :
    Makes s (Build.tuple m s.next items)
  | list (m : Manager) {items : List Value} (h : ∀ v ∈ items, s.Has v) :
    Makes s (Build.list m s.next items)
  | set (m : Manager) {items : List Value} (h : ∀ v ∈ items, s.Has v) :
    Makes s (Build.set m s.next items)
  | relation (m : Manager) {items : List Value} {v : Value} (h : ∀ v ∈ items, s.Has v)
    (hv : Build.relation m s.next items = .ok v) : Makes s v
  | map (m : Manager) {entries : List (Value × Value)} (h : ∀ e ∈ entries, s.HasEntry e) :
    Makes s (Build.map m s.next entries)
  | node (m : Manager) (name : String) {children : List Value} (h : ∀ v ∈ children, s.Has v) :
    Makes s (Build.node m s.next name children)
  | constructor {consTy : Ty} {children : List Value} {v : Value} (ht : consTy.Made)
    (h : ∀ v ∈ children, s.Has v) (hv : Build.constructor s.next consTy children = .ok v) :
    Makes s v
  | construct {st : Store} {adt : Ty} {name : String} {children : List Value} {v : Value}
    (hst : st.Reachable) (h : ∀ v ∈ children, s.Has v)
    (hv : Build.construct st s.next adt name children = .ok v) : Makes s v
  | emptyList (m : Manager) {elem : Ty} (h : elem.Made) : Makes s (Build.emptyList m s.next elem)
  | emptySet (m : Manager) {elem : Ty} (h : elem.Made) : Makes s (Build.emptySet m s.next elem)
  | emptyMap (m : Manager) {key val : Ty} (hk : key.Made) (hv : val.Made) :
    Makes s (Build.emptyMap m s.next key val)
  | emptyRelation (m : Manager) {row : Ty} {v : Value} (h : row.Made)
    (hv : Build.emptyRelation m s.next row = .ok v) : Makes s v
  | make (m : Manager) {ty : Ty} {children : List Value} {v : Value} (ht : ty.Made)
    (h : ∀ v ∈ children, s.Has v) (hv : Build.make m s.next ty children = .ok v) : Makes s v
  | put (m : Manager) {v key val w : Value} (h : s.Has v) (hk : s.Has key) (hx : s.Has val)
    (hw : Build.put m s.next v key val = .ok w) : Makes s w

/-- New writers, with types declared or not, and reopened values. -/
inductive Opens (s : Session) : AnyWriter → Prop
  | tuple (m : Manager) : Opens s (.tuple (.tuple m))
  | list (m : Manager) {elem : Option Ty} (h : ∀ t ∈ elem, t.Made) : Opens s (.list (.list m elem))
  | set (m : Manager) {elem : Option Ty} (h : ∀ t ∈ elem, t.Made) : Opens s (.set (.set m elem))
  | relation (m : Manager) {row : Ty} {w : Writer SetBuffer} (h : row.Made)
    (hw : Writer.relation m row = .ok w) : Opens s (.set w)
  | map (m : Manager) {key val : Option Ty} (hk : ∀ t ∈ key, t.Made) (hv : ∀ t ∈ val, t.Made) :
    Opens s (.map (.map m key val))
  | ofTuple (m : Manager) {v : Value} {w : Writer TupleBuffer} (h : s.Has v)
    (hw : v.toTupleWriter? m = some w) : Opens s (.tuple w)
  | ofList (m : Manager) {v : Value} {w : Writer ListBuffer} (h : s.Has v)
    (hw : v.toListWriter? m = some w) : Opens s (.list w)
  | ofSet (m : Manager) {v : Value} {w : Writer SetBuffer} (h : s.Has v)
    (hw : v.toSetWriter? m = some w) : Opens s (.set w)
  | ofMap (m : Manager) {v : Value} {w : Writer MapBuffer} (h : s.Has v)
    (hw : v.toMapWriter? m = some w) : Opens s (.map w)

/-- Items go into a writer one after the other, up to the first that it refuses. -/
inductive Inserts (s : Session) : AnyWriter → AnyWriter → Prop
  | tuple (w : Writer TupleBuffer) {items : List Value} (h : ∀ v ∈ items, s.Has v) :
    Inserts s (.tuple w) (.tuple (stateAfter (Writer.insertAll items) w))
  | list (w : Writer ListBuffer) {items : List Value} (h : ∀ v ∈ items, s.Has v) :
    Inserts s (.list w) (.list (stateAfter (Writer.insertAll items) w))
  | set (w : Writer SetBuffer) {items : List Value} (h : ∀ v ∈ items, s.Has v) :
    Inserts s (.set w) (.set (stateAfter (Writer.insertAll items) w))
  | map (w : Writer MapBuffer) {items : List (Value × Value)} (h : ∀ e ∈ items, s.HasEntry e) :
    Inserts s (.map w) (.map (stateAfter (Writer.insertAll items) w))

/-- A writer is asked for its value, which it may refuse. Either way it is spent. -/
inductive Finishes (s : Session) : AnyWriter → Option Value → AnyWriter → Prop
  | tuple {w w' : Writer TupleBuffer} {v : Value} (h : Writer.done s.next w = .ok v w') :
    Finishes s (.tuple w) (some v) (.tuple w')
  | list {w w' : Writer ListBuffer} {v : Value} (h : Writer.done s.next w = .ok v w') :
    Finishes s (.list w) (some v) (.list w')
  | set {w w' : Writer SetBuffer} {v : Value} (h : Writer.done s.next w = .ok v w') :
    Finishes s (.set w) (some v) (.set w')
  | map {w w' : Writer MapBuffer} {v : Value} (h : Writer.done s.next w = .ok v w') :
    Finishes s (.map w) (some v) (.map w')
  | failed {w w' : Writer SetBuffer} {e : BuildError} (h : Writer.done s.next w = .error e w') :
    Finishes s (.set w) none (.set w')

/-- The session with a value in the next free cell. -/
def add (s : Session) (v : Value) : Session :=
  { s with next := s.next + 1, values := v :: s.values }

inductive Step (s : Session) : Session → Prop
  | make {v : Value} (h : s.Makes v) : Step s (s.add v)
  | read {r : Reader} (m : Manager) {text : String} {v : Value} {n : Cell}
    (hr : ∀ st ∈ r.store, st.Reachable) (h : r.read m s.next text = .ok (v, n)) :
    Step s { s with next := n, values := v :: s.values }
  | openWriter {w : AnyWriter} (h : s.Opens w) : Step s { s with writers := w :: s.writers }
  | insert {before after : List AnyWriter} {w w' : AnyWriter}
    (hs : s.writers = before ++ w :: after) (h : s.Inserts w w') :
    Step s { s with writers := before ++ w' :: after }
  | finish {before after : List AnyWriter} {w w' : AnyWriter} {v : Value}
    (hs : s.writers = before ++ w :: after) (h : s.Finishes w (some v) w') :
    Step s { s.add v with writers := before ++ w' :: after }
  | fail {before after : List AnyWriter} {w w' : AnyWriter}
    (hs : s.writers = before ++ w :: after) (h : s.Finishes w none w') :
    Step s { s with writers := before ++ w' :: after }

/-- The sessions of all programs. -/
inductive Reachable : Session → Prop
  | start : Reachable {}
  | step {s s' : Session} (h : Reachable s) (hs : s.Step s') : Reachable s'

theorem Reachable.make {s : Session} {v : Value} (h : s.Reachable) (hv : s.Makes v) :
    (s.add v).Reachable :=
  .step h (.make hv)

end Session

end ValueAlgebra
