import ValueAlgebra.Value.Text

/-!
# Writing values to a sink

A sink takes bytes up to a capacity and then fails; it may also fail when flushed. What it took
before it failed stays in it.
-/

namespace ValueAlgebra

inductive SinkError
  /-- The capacity is exhausted. -/
  | closed
  | flushFailed
  deriving DecidableEq, Repr

namespace SinkError

def message : SinkError → String
  | closed => "closed"
  | flushFailed => "flush"

end SinkError

structure Sink where
  /-- How many bytes the sink takes in all, without a bound if absent. -/
  capacity : Option Nat := none
  flushFails : Bool := false
  taken : ByteArray := .empty

namespace Sink

/-- Takes the bytes that fit, and fails if some do not. -/
def write (bytes : ByteArray) : EStateM SinkError Sink Unit := fun s =>
  let taken := s.taken ++ bytes
  match s.capacity with
  | none => .ok () { s with taken }
  | some n =>
    if taken.size ≤ n then .ok () { s with taken }
    else .error .closed { s with taken := taken.extract 0 n }

def flush : EStateM SinkError Sink Unit := fun s =>
  if s.flushFails then .error .flushFailed s else .ok () s

end Sink

namespace Value

/-- Writes the canonical text. -/
def writeTo (v : Value) : EStateM SinkError Sink Unit := do
  Sink.write v.text.toUTF8
  Sink.flush

end Value

end ValueAlgebra
