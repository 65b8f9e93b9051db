import ValueAlgebra.Value.Access

/-!
# Values inside values

The parts of a value are the values it directly holds, and a value lies within another if it is
reached through parts. Parts are smaller, so what passes from parts to the whole holds of every
value.

## Main definitions

- `Value.parts`, `Value.Within`: direct and nested parts
- `Value.cell?`: the storage of a value that has any
-/

namespace ValueAlgebra

namespace Table

variable {κ ν : Type} {t : Table κ ν}

theorem mem_keys {k : κ} : k ∈ t.keys ↔ ∃ e ∈ t.toList, e.1 = k := List.mem_map

theorem mem_values {x : ν} : x ∈ t.values ↔ ∃ e ∈ t.toList, e.2 = x := List.mem_map

variable [SizeOf κ] [SizeOf ν]

theorem sizeOf_entry_lt {e : κ × ν} (h : e ∈ t.toList) : sizeOf e < sizeOf t := by
  obtain ⟨⟨es⟩, index⟩ := t
  have := List.sizeOf_lt_of_mem h
  simp only [toList, Table.mk.sizeOf_spec, Array.mk.sizeOf_spec] at this ⊢
  omega

theorem sizeOf_key_lt {k : κ} (h : k ∈ t.keys) : sizeOf k < sizeOf t := by
  obtain ⟨⟨k, x⟩, he, rfl⟩ := mem_keys.1 h
  have := sizeOf_entry_lt he
  simp only [Prod.mk.sizeOf_spec] at this
  show sizeOf k < _
  omega

theorem sizeOf_value_lt {x : ν} (h : x ∈ t.values) : sizeOf x < sizeOf t := by
  obtain ⟨⟨k, x⟩, he, rfl⟩ := mem_values.1 h
  have := sizeOf_entry_lt he
  simp only [Prod.mk.sizeOf_spec] at this
  show sizeOf x < _
  omega

end Table

namespace Value

/-- The values that a value directly holds. -/
def parts : Value → List Value
  | tuple _ _ vs | list _ _ vs | node _ _ _ vs | constructor _ _ vs => vs
  | set _ _ t => t.keys
  | map _ _ t => t.keys ++ t.values
  | _ => []

/-- `w` is `v` or lies somewhere inside it. -/
inductive Within (w : Value) : Value → Prop
  | refl : Within w w
  | part {p v : Value} (hp : p ∈ v.parts) (h : Within w p) : Within w v

/-- The storage of a value. Numbers and truth values have none. -/
def cell? : Value → Option Cell
  | int .. | double .. | bool .. => none
  | str _ c _ | loc _ c _ _ | tuple _ c _ | list _ c _ | set _ c _ | map _ c _ | node _ c _ _
  | constructor _ c _ => some c

theorem Within.trans {u v w : Value} (h : Within u v) (h' : Within v w) : Within u w := by
  induction h' with
  | refl => exact h
  | part hp _ ih => exact .part hp ih

@[simp]
theorem parts_withTy (v : Value) (t : Ty) : (v.withTy t).parts = v.parts := by cases v <;> rfl

@[simp]
theorem cell?_withTy (v : Value) (t : Ty) : (v.withTy t).cell? = v.cell? := by cases v <;> rfl

/-- Both sides of an entry are parts of a map. -/
theorem parts_of_entry {t : Ty} {c : Cell} {es : Table Value Value} {e : Value × Value}
    (h : e ∈ es.toList) : e.1 ∈ (map t c es).parts ∧ e.2 ∈ (map t c es).parts :=
  ⟨List.mem_append_left _ (List.mem_map_of_mem h), List.mem_append_right _ (List.mem_map_of_mem h)⟩

/-- Parts are smaller than the whole. -/
theorem sizeOf_part_lt {p v : Value} (h : p ∈ v.parts) : sizeOf p < sizeOf v := by
  cases v with
  | tuple t c vs | list t c vs | node t c n vs | constructor t c vs =>
    have : sizeOf p < sizeOf vs := List.sizeOf_lt_of_mem h
    simp only [tuple.sizeOf_spec, list.sizeOf_spec, node.sizeOf_spec, constructor.sizeOf_spec]
    omega
  | set t c es =>
    have := Table.sizeOf_key_lt h
    simp only [set.sizeOf_spec]
    omega
  | map t c es =>
    simp only [map.sizeOf_spec]
    rcases List.mem_append.1 h with h | h
    · have := Table.sizeOf_key_lt h
      omega
    · have := Table.sizeOf_value_lt h
      omega
  | int | double | bool | str | loc => cases h

/-- What holds of a value once it holds of its parts holds of every value. -/
theorem parts_induction {motive : Value → Prop} (h : ∀ v, (∀ p ∈ v.parts, motive p) → motive v)
    (v : Value) : motive v :=
  h v fun p _ => parts_induction h p
termination_by sizeOf v
decreasing_by exact sizeOf_part_lt ‹_›

end Value

end ValueAlgebra
