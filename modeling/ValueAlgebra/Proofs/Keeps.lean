/-!
# Programs that keep an invariant

A program over a state leaves a state behind whether it succeeds or fails: `stateAfter`. It keeps
an invariant if that state has it whenever the first one did, and a program made of such programs
does too.
-/

namespace ValueAlgebra

variable {ε σ α β : Type}

/-- The state that a program leaves behind, also when it fails. -/
def stateAfter (x : EStateM ε σ α) (s : σ) : σ :=
  match x s with
  | .ok _ s' | .error _ s' => s'

theorem bind_apply_of_ok {x : EStateM ε σ α} {f : α → EStateM ε σ β} {s s' : σ} {a : α}
    (h : x s = .ok a s') : (x >>= f) s = f a s' := by
  show EStateM.bind x f s = _
  rw [EStateM.bind, h]

theorem stateAfter_bind_of_ok {x : EStateM ε σ α} {f : α → EStateM ε σ β} {s s' : σ} {a : α}
    (h : x s = .ok a s') : stateAfter (x >>= f) s = stateAfter (f a) s' := by
  rw [stateAfter, bind_apply_of_ok h, stateAfter]

/-- A step that fails leaves its state as that of the whole. -/
theorem stateAfter_bind_of_error {x : EStateM ε σ α} {f : α → EStateM ε σ β} {s s' : σ} {e : ε}
    (h : x s = .error e s') : stateAfter (x >>= f) s = s' := by
  show stateAfter (EStateM.bind x f) s = s'
  rw [stateAfter, EStateM.bind, h]

theorem stateAfter_bind_pure (x : EStateM ε σ α) (b : β) (s : σ) :
    stateAfter (x >>= fun _ => pure b) s = stateAfter x s := by
  cases h : x s with
  | ok a s' =>
    rw [stateAfter_bind_of_ok h]
    simp only [stateAfter, h]
    rfl
  | error e s' =>
    rw [stateAfter_bind_of_error h]
    simp only [stateAfter, h]

theorem bind_apply_eq_ok {x : EStateM ε σ α} {f : α → EStateM ε σ β} {s s'' : σ} {b : β} :
    (x >>= f) s = .ok b s'' ↔ ∃ a s', x s = .ok a s' ∧ f a s' = .ok b s'' := by
  show EStateM.bind x f s = _ ↔ _
  unfold EStateM.bind
  cases x s with
  | ok a s' => exact ⟨fun h => ⟨a, s', rfl, h⟩, by rintro ⟨_, _, ⟨⟩, h⟩; exact h⟩
  | error e s' => exact ⟨nofun, by rintro ⟨_, _, ⟨⟩, _⟩⟩

theorem discard_eq_ok {x : EStateM ε σ α} {s s' : σ} :
    discard x s = .ok () s' ↔ ∃ a, x s = .ok a s' := by
  show (x >>= fun _ => pure () : EStateM ε σ Unit) s = _ ↔ _
  rw [bind_apply_eq_ok]
  constructor
  · rintro ⟨a, _, h, ⟨⟩⟩
    exact ⟨a, h⟩
  · rintro ⟨a, h⟩
    exact ⟨a, s', h, rfl⟩

/-- What holds of the rounds done so far, round after round, holds of all of them after a loop that
succeeded. -/
theorem forM_eq_ok {f : α → EStateM ε σ Unit} {l : List α} {I : List α → σ → Prop} {s s' : σ}
    (hstep : ∀ pre a post s s', l = pre ++ a :: post → I pre s → f a s = .ok () s' →
      I (pre ++ [a]) s')
    (hs : I [] s) (hrun : l.forM f s = .ok () s') : I l s' := by
  suffices h : ∀ post pre s, l = pre ++ post → I pre s → post.forM f s = .ok () s' → I l s' from
    h l [] s rfl hs hrun
  intro post
  induction post with
  | nil =>
    intro pre s hl hpre hrun
    obtain rfl : s = s' := (EStateM.Result.ok.inj hrun).2
    rwa [hl, List.append_nil]
  | cons a post ih =>
    intro pre s hl hpre hrun
    have hrun : (f a >>= fun _ => post.forM f : EStateM ε σ Unit) s = .ok () s' := hrun
    obtain ⟨_, t, ha, hrun⟩ := bind_apply_eq_ok.1 hrun
    exact ih (pre ++ [a]) t (by simp [hl]) (hstep pre a post s t hl hpre ha) hrun

/-- Running the program does not break the invariant. -/
def Keeps (I : σ → Prop) (x : EStateM ε σ α) : Prop := ∀ s, I s → I (stateAfter x s)

namespace Keeps

variable {I : σ → Prop} {x : EStateM ε σ α}

protected theorem pure (a : α) : Keeps I (pure a : EStateM ε σ α) := fun _ h => h

protected theorem throw (e : ε) : Keeps I (throw e : EStateM ε σ α) := fun _ h => h

/-- The second program may rely on what the first reads off a state with the invariant. -/
theorem bind_get {f : σ → EStateM ε σ β} (hf : ∀ s, I s → I (stateAfter (f s) s)) :
    Keeps I (get >>= f) := fun s h => hf s h

protected theorem bind {f : α → EStateM ε σ β} (hx : Keeps I x) (hf : ∀ a, Keeps I (f a)) :
    Keeps I (x >>= f) := by
  intro s h
  have hs := hx s h
  simp only [stateAfter, bind, EStateM.bind] at hs ⊢
  cases hxs : x s with
  | ok a s' =>
    rw [hxs] at hs
    exact hf a s' hs
  | error e s' =>
    rw [hxs] at hs
    exact hs

protected theorem discard (hx : Keeps I x) : Keeps I (discard x) :=
  hx.bind fun _ => .pure _

protected theorem forM {f : α → EStateM ε σ Unit} : ∀ {l : List α}, (∀ a ∈ l, Keeps I (f a)) →
    Keeps I (l.forM f)
  | [], _ => .pure ()
  | a :: l, h => by
    obtain ⟨ha, hl⟩ := List.forall_mem_cons.1 h
    show Keeps I (f a >>= fun _ => l.forM f)
    exact ha.bind fun _ => Keeps.forM hl

end Keeps

end ValueAlgebra
