import ValueAlgebra.Proofs.Keeps

/-!
# Programs that complete

`Completes P x Q` says that a program over a state cannot fail where `P` holds of the state, and
that it leaves a state with `Q` behind.
-/

namespace ValueAlgebra

variable {ε σ α β : Type}

/-- From a state with `P` the program succeeds and leaves one with `Q`. -/
def Completes (P : σ → Prop) (x : EStateM ε σ α) (Q : σ → Prop) : Prop :=
  ∀ s, P s → ∃ a s', x s = .ok a s' ∧ Q s'

namespace Completes

variable {P Q R : σ → Prop} {x : EStateM ε σ α}

protected theorem bind {f : α → EStateM ε σ β} (hx : Completes P x Q)
    (hf : ∀ a, Completes Q (f a) R) : Completes P (x >>= f) R := by
  intro s hs
  obtain ⟨a, s', hxs, hs'⟩ := hx s hs
  obtain ⟨b, s'', hfs, hs''⟩ := hf a s' hs'
  exact ⟨b, s'', (bind_apply_of_ok hxs).trans hfs, hs''⟩

protected theorem discard (hx : Completes P x Q) : Completes P (discard x) Q :=
  hx.bind fun _ s hs => ⟨(), s, rfl, hs⟩

/-- A loop completes if each round does and keeps the invariant. -/
protected theorem forM {f : α → EStateM ε σ Unit} {l : List α}
    (h : ∀ a ∈ l, Completes P (f a) P) : Completes P (l.forM f) P := by
  induction l with
  | nil => exact fun s hs => ⟨(), s, rfl, hs⟩
  | cons a l ih =>
    obtain ⟨ha, hl⟩ := List.forall_mem_cons.1 h
    show Completes P (f a >>= fun _ => l.forM f) P
    exact ha.bind fun _ => ih hl

/-- What one round achieves holds after the loop, if the other rounds keep it. -/
protected theorem forM_each {f : α → EStateM ε σ Unit} {l : List α} {Q : α → σ → Prop}
    (h : ∀ a ∈ l, Completes P (f a) fun s => P s ∧ Q a s)
    (hkeeps : ∀ a ∈ l, ∀ b ∈ l, Keeps (Q a) (f b)) :
    Completes P (l.forM f) fun s => P s ∧ ∀ a ∈ l, Q a s := by
  induction l with
  | nil => exact fun s hs => ⟨(), s, rfl, hs, nofun⟩
  | cons a l ih =>
    obtain ⟨ha, hl⟩ := List.forall_mem_cons.1 h
    obtain ⟨hkeepsa, hkeepsl⟩ := List.forall_mem_cons.1 hkeeps
    have ih := ih hl fun b hb c hc => hkeepsl b hb c (List.mem_cons_of_mem a hc)
    show Completes P (f a >>= fun _ => l.forM f) _
    refine ha.bind fun _ s hs => ?_
    obtain ⟨u, s', hrun, hP, hQ⟩ := ih s hs.1
    -- The rounds that follow keep what the first one has achieved.
    have hQa := Keeps.forM (fun b hb => hkeepsa b (List.mem_cons_of_mem a hb)) s hs.2
    rw [stateAfter, hrun] at hQa
    exact ⟨u, s', hrun, hP, List.forall_mem_cons.2 ⟨hQa, hQ⟩⟩

end Completes

end ValueAlgebra
