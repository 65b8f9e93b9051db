import ValueAlgebra.Value.Basic

/-!
# Hashing values

A value is hashed through the pieces of content that equality sees, in order: `Value.feed`. A set
or map contributes its size and the wrapping sum of the digests of its elements or entries, so
that their order does not matter. `feed` takes the digest function as an argument; `Value.hash`
uses one digest throughout.
-/

namespace ValueAlgebra

/-- A piece of content to be hashed. -/
inductive Chunk
  | kind (k : Kind)
  | word (w : UInt64)
  | text (s : String)
  deriving DecidableEq, Repr

namespace Chunk

/-- Adds a word to a running hash. -/
def mixWord (h w : UInt64) : UInt64 :=
  let h := (h ^^^ w) * 0x9e3779b97f4a7c15
  h ^^^ (h >>> 29)

/-- Adds a piece to a running hash. A text is closed by a word that no character has. -/
def mix (h : UInt64) : Chunk → UInt64
  | kind k => mixWord h k.ctorIdx.toUInt64
  | word w => mixWord h w
  | text s => mixWord (s.toList.foldl (fun h c => mixWord h c.val.toUInt64) h) 0xffffffff

def digest (chunks : List Chunk) : UInt64 := chunks.foldl mix 0xcbf29ce484222325

/-- The pieces of a name that may be absent. -/
def ofName? : Option String → List Chunk
  | none => [word 0]
  | some s => [word 1, text s]

def ofSpan (r : Span) : List Chunk :=
  [word r.startOffset, word r.length, word r.startLine, word r.endLine, word r.startColumn,
    word r.endColumn]

end Chunk

namespace Value

open Chunk

mutual

/-- The content of a value in pieces, where `digest` condenses the elements of sets and maps. -/
def feed (digest : List Chunk → UInt64) : Value → List Chunk
  | int _ n => [.kind .int, .word n.toUInt64]
  | double _ d => [.kind .double, .word d.canonicalBits]
  | bool _ b => [.kind .bool, .word b.toUInt64]
  | str _ _ s => [.kind .str, .text s]
  | loc _ _ p r => .kind .loc :: .text p :: ofSpan r
  | tuple _ _ vs => .kind .tuple :: .word vs.length.toUInt64 :: feedAll digest vs
  | list _ _ vs => .kind .list :: .word vs.length.toUInt64 :: feedAll digest vs
  | set _ _ ⟨⟨es⟩, _⟩ => [.kind .set, .word es.length.toUInt64, .word (elemSum digest es)]
  | map _ _ ⟨⟨es⟩, _⟩ => [.kind .map, .word es.length.toUInt64, .word (entrySum digest es)]
  | node _ _ n vs => .kind .node :: .text n :: .word vs.length.toUInt64 :: feedAll digest vs
  | constructor t _ vs =>
    .kind .constructor :: (ofName? t.ownerName? ++ ofName? t.constructorName?
      ++ .word vs.length.toUInt64 :: feedAll digest vs)

def feedAll (digest : List Chunk → UInt64) : List Value → List Chunk
  | [] => []
  | v :: vs => v.feed digest ++ feedAll digest vs

/-- The sum of the digests of the elements. -/
def elemSum (digest : List Chunk → UInt64) : List (Value × Unit) → UInt64
  | [] => 0
  | (v, _) :: es => digest (v.feed digest) + elemSum digest es

/-- The sum of the digests of the entries, each a key followed by its value. -/
def entrySum (digest : List Chunk → UInt64) : List (Value × Value) → UInt64
  | [] => 0
  | (k, v) :: es => digest (k.feed digest ++ v.feed digest) + entrySum digest es

end

protected def hash (v : Value) : UInt64 := Chunk.digest (v.feed Chunk.digest)

instance : Hashable Value := ⟨Value.hash⟩

end Value

end ValueAlgebra
