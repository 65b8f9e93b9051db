/-!
# Programs that succeed

When a program in `Except` succeeds, so does each of its steps. Proofs take such a program apart
with these equivalences and never unfold it.
-/

namespace ValueAlgebra

variable {ε ε' α β : Type}

@[simp]
theorem bind_eq_ok {x : Except ε α} {f : α → Except ε β} {b : β} :
    x >>= f = .ok b ↔ ∃ a, x = .ok a ∧ f a = .ok b := by
  cases x with
  | ok a => exact ⟨fun h => ⟨a, rfl, h⟩, fun ⟨_, ha, h⟩ => Except.ok.inj ha ▸ h⟩
  | error e => exact ⟨nofun, nofun⟩

@[simp]
theorem map_eq_ok {f : α → β} {x : Except ε α} {b : β} :
    f <$> x = .ok b ↔ ∃ a, x = .ok a ∧ f a = b := by
  cases x with
  | ok a => exact ⟨fun h => ⟨a, rfl, Except.ok.inj h⟩, fun ⟨_, ha, h⟩ =>
      congrArg Except.ok (Except.ok.inj ha ▸ h)⟩
  | error e => exact ⟨nofun, nofun⟩

@[simp]
theorem pure_eq_ok {a b : α} : (pure a : Except ε α) = .ok b ↔ a = b :=
  ⟨fun h => Except.ok.inj h, fun h => congrArg _ h⟩

@[simp]
theorem mapError_eq_ok {f : ε → ε'} {x : Except ε α} {a : α} :
    x.mapError f = .ok a ↔ x = .ok a := by
  cases x with
  | ok b => exact ⟨fun h => congrArg _ (Except.ok.inj h), fun h => congrArg _ (Except.ok.inj h)⟩
  | error e => exact ⟨nofun, nofun⟩

/-- Errors of a program are those of its steps. -/
theorem mapError_bind (x : Except ε α) (f : α → Except ε β) (g : ε → ε') :
    (x >>= f).mapError g = x.mapError g >>= fun a => (f a).mapError g := by
  cases x <;> rfl

/-- What every step of a fold keeps holds at its end. -/
theorem foldlM_eq_ok {P : β → Prop} {f : β → α → Except ε β} : ∀ {as : List α} {b b' : β}, P b →
    (∀ b, ∀ a ∈ as, ∀ b', P b → f b a = .ok b' → P b') → as.foldlM f b = .ok b' → P b'
  | [], _, _, hb, _, h => pure_eq_ok.1 h ▸ hb
  | a :: as, b, _, hb, hf, h => by
    rw [List.foldlM_cons] at h
    obtain ⟨c, hc, h⟩ := bind_eq_ok.1 h
    exact foldlM_eq_ok (hf b a List.mem_cons_self c hb hc)
      (fun b a ha => hf b a (List.mem_cons_of_mem _ ha)) h

/-- What every step of a fold does to a part of the state the whole fold does. -/
theorem foldlM_eq_ok_foldl {γ : Type} {part : β → γ} {f : β → α → Except ε β} {g : γ → α → γ}
    (hf : ∀ b a b', f b a = .ok b' → part b' = g (part b) a) : ∀ {as : List α} {b b' : β},
    as.foldlM f b = .ok b' → part b' = as.foldl g (part b)
  | [], _, _, h => congrArg part (pure_eq_ok.1 h).symm
  | a :: as, b, _, h => by
    rw [List.foldlM_cons] at h
    obtain ⟨c, hc, h⟩ := bind_eq_ok.1 h
    rw [foldlM_eq_ok_foldl hf h, hf b a c hc, List.foldl_cons]

end ValueAlgebra
