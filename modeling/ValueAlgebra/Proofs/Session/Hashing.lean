import ValueAlgebra.Proofs.Session.Equality

/-!
# Equal values hash alike

A hasher takes a value in piece by piece. Sets and maps are condensed by an inner hash function
before, into a sum over their elements or entries. Equal sets have equal elements, one for one, but
in another order and under other types, which the sum does not see: the pieces are the same.

## Main definitions

- `Value.hashInto`: hashing with any hasher and any inner hash function
-/

namespace ValueAlgebra

universe u

namespace Value

/-- The state of a hasher after the pieces of a value were written to it. -/
def hashInto {σ : Type u} (write : σ → Chunk → σ) (digest : List Chunk → UInt64) (state : σ)
    (v : Value) : σ :=
  (v.feed digest).foldl write state

/-- Tables of values are indexed by one such hash. -/
theorem hash_eq_hashInto (v : Value) :
    v.hash = v.hashInto Chunk.mix Chunk.digest 0xcbf29ce484222325 := rfl

end Value

namespace Session

variable {s : Session} {v w : Value}

theorem Coherent.feed_eq_of_beq (h : s.Coherent) (hv : s.Has v) (hw : s.Has w)
    (heq : (v == w) = true) (digest : List Chunk → UInt64) : v.feed digest = w.feed digest := by
  rw [h.beq_iff_same hv hw] at heq
  exact (Value.feed_eq_of_same (h.sound hv) (h.sound hw) heq digest).symm

/-- Equal values at hand feed the same pieces into any hasher, whatever hash function condenses
their sets and maps, and leave it in the same state. -/
theorem Reachable.hashInto_eq_of_beq {σ : Type u} (hs : s.Reachable) (hv : s.Has v)
    (hw : s.Has w) (heq : (v == w) = true) (digest : List Chunk → UInt64) :
    v.feed digest = w.feed digest ∧ ∀ (write : σ → Chunk → σ) (state : σ),
      v.hashInto write digest state = w.hashInto write digest state := by
  have hfeed := hs.coherent.feed_eq_of_beq hv hw heq digest
  refine ⟨hfeed, fun write state => ?_⟩
  rw [Value.hashInto, Value.hashInto, hfeed]

namespace Nested

/-- An inner hash function other than the one of the tables. -/
def checksum (pieces : List Chunk) : UInt64 := pieces.foldl (fun h c => 31 * h + Chunk.mix 7 c) 17

end Nested

open Nested in
/-- The maps hold equal keys and values in different orders, and these hold elements of different
types and bits. A hasher that keeps every piece still cannot tell them apart. -/
theorem hashInto_firstMap : (firstMap == secondMap) = true ∧
    firstMap.hashInto (fun pieces c => pieces ++ [c]) checksum [] =
      secondMap.hashInto (fun pieces c => pieces ++ [c]) checksum [] := by
  have hfirst : session.Has firstMap := has_of_mem (.tail _ (.tail _ (.head _)))
  have hsecond : session.Has secondMap := has_of_mem (.tail _ (.head _))
  obtain ⟨-, hhash⟩ :=
    reachable_session.hashInto_eq_of_beq hfirst hsecond firstMap_beq_secondMap checksum
  exact ⟨firstMap_beq_secondMap, hhash _ []⟩

end Session

end ValueAlgebra
