import Mathlib.Data.List.Basic
import Mathlib.Data.List.Induction

/-!
# What a sequence of insertions means

Entries inserted one after the other, later ones overwriting earlier ones of an equal key, leave
one entry for each class of equal keys: the key that came first, in the place where it came, with
the value that came last. `latest` says this of the whole sequence, and what one more entry changes
follows from what it changes in the two parts, the keys without repetitions and the last values.

Keys are compared by `==`, which need only be an equivalence on the keys that are inserted.

## Main definitions

- `BeqOn`: `==` is an equivalence on some keys
- `lastFor`: the value inserted last for a key
- `latest`: the entries that are left
-/

namespace ValueAlgebra

variable {κ ν : Type} [BEq κ] {P : κ → Prop}

/-- Equality is an equivalence on the keys that `P` holds of. -/
structure BeqOn (P : κ → Prop) : Prop where
  refl : ∀ a, P a → (a == a) = true
  symm : ∀ a b, P a → P b → (a == b) = true → (b == a) = true
  trans : ∀ a b c, P a → P b → P c → (a == b) = true → (b == c) = true → (a == c) = true

/-- The value of the last entry whose key equals `k`. -/
def lastFor (es : List (κ × ν)) (k : κ) : Option ν :=
  (es.reverse.find? fun e => e.1 == k).map Prod.snd

/-- The first key of every class, in order, with the value of its last entry. -/
def latest (es : List (κ × ν)) : List (κ × ν) :=
  (es.map Prod.fst).eraseDups.filterMap fun k => (lastFor es k).map fun x => (k, x)

namespace BeqOn

variable {a b c : κ}

theorem comm (h : BeqOn P) (ha : P a) (hb : P b) : (a == b) = (b == a) :=
  Bool.eq_iff_iff.2 ⟨h.symm a b ha hb, h.symm b a hb ha⟩

/-- Equal keys are equal to the same keys. -/
theorem congr_right (h : BeqOn P) (ha : P a) (hb : P b) (hc : P c) (hab : (a == b) = true) :
    (c == a) = (c == b) := by
  refine Bool.eq_iff_iff.2 ⟨fun hca => ?_, fun hcb => ?_⟩
  · exact h.trans c a b hc ha hb hca hab
  · exact h.trans c b a hc hb ha hcb (h.symm a b ha hb hab)

end BeqOn

/-! ### Keys without repetitions -/

section

variable {xs : List κ} {x : κ}

theorem eraseDups_loop_snoc (xs acc : List κ) (x : κ) :
    List.eraseDupsBy.loop (· == ·) (xs ++ [x]) acc =
      if (List.eraseDupsBy.loop (· == ·) xs acc).any (x == ·) then
        List.eraseDupsBy.loop (· == ·) xs acc
      else List.eraseDupsBy.loop (· == ·) xs acc ++ [x] := by
  induction xs generalizing acc with
  | nil =>
    rw [List.nil_append, List.eraseDupsBy.loop, List.eraseDupsBy.loop, List.any_reverse]
    cases acc.any (x == ·) with
    | true => rfl
    | false => simp [List.eraseDupsBy.loop]
  | cons y ys ih =>
    rw [List.cons_append, List.eraseDupsBy.loop, List.eraseDupsBy.loop]
    cases acc.any (y == ·) with
    | true => exact ih acc
    | false => exact ih (y :: acc)

/-- One more key is kept unless it is equal to one that is kept already. -/
theorem eraseDups_snoc (xs : List κ) (x : κ) :
    (xs ++ [x]).eraseDups =
      if xs.eraseDups.any (x == ·) then xs.eraseDups else xs.eraseDups ++ [x] :=
  eraseDups_loop_snoc xs [] x

theorem mem_of_mem_eraseDups (xs : List κ) : ∀ k ∈ xs.eraseDups, k ∈ xs := by
  induction xs using List.reverseRecOn with
  | nil => exact fun k hk => hk
  | append_singleton xs x ih =>
    intro k hk
    rw [eraseDups_snoc] at hk
    split at hk
    · exact List.mem_append_left [x] (ih k hk)
    · rcases List.mem_append.1 hk with hk | hk
      · exact List.mem_append_left [x] (ih k hk)
      · exact List.mem_append_right xs hk

/-- No key that is kept is equal to one kept before it. -/
theorem pairwise_eraseDups (xs : List κ) : xs.eraseDups.Pairwise fun a b => (b == a) = false := by
  induction xs using List.reverseRecOn with
  | nil => exact .nil
  | append_singleton xs x ih =>
    rw [eraseDups_snoc]
    by_cases hx : xs.eraseDups.any (x == ·) = true
    · rw [if_pos hx]
      exact ih
    · rw [if_neg hx, List.pairwise_append]
      refine ⟨ih, List.pairwise_singleton _ x, fun k hk y hy => ?_⟩
      rw [List.mem_singleton.1 hy]
      exact Bool.eq_false_iff.2 fun hxk => hx (List.any_eq_true.2 ⟨k, hk, hxk⟩)

/-- Of pairwise different keys all are kept. -/
theorem eraseDups_of_pairwise (h : xs.Pairwise fun a b => (b == a) = false) :
    xs.eraseDups = xs := by
  induction xs using List.reverseRecOn with
  | nil => rfl
  | append_singleton xs x ih =>
    obtain ⟨hxs, -, hx⟩ := List.pairwise_append.1 h
    have hnew : ¬xs.any (x == ·) = true := by
      intro hany
      obtain ⟨k, hk, hxk⟩ := List.any_eq_true.1 hany
      cases hxk.symm.trans (hx k hk x List.mem_cons_self)
    rw [eraseDups_snoc, ih hxs, if_neg hnew]

/-- Every class has a key that is kept. -/
theorem exists_mem_eraseDups_iff (h : BeqOn P) (hxs : ∀ x ∈ xs, P x) {y : κ} (hy : P y) :
    (∃ k ∈ xs.eraseDups, (k == y) = true) ↔ ∃ x ∈ xs, (x == y) = true := by
  refine ⟨fun ⟨k, hk, hky⟩ => ⟨k, mem_of_mem_eraseDups xs k hk, hky⟩, ?_⟩
  induction xs using List.reverseRecOn with
  | nil => exact fun ⟨_, hx, _⟩ => nomatch hx
  | append_singleton xs x ih =>
    rintro ⟨z, hz, hzy⟩
    have hx : P x := hxs x (List.mem_append_right xs List.mem_cons_self)
    have hold : ∀ z ∈ xs, P z := fun z hz => hxs z (List.mem_append_left [x] hz)
    rw [eraseDups_snoc]
    rcases List.mem_append.1 hz with hz | hz
    · obtain ⟨k, hk, hky⟩ := ih hold ⟨z, hz, hzy⟩
      refine ⟨k, ?_, hky⟩
      split
      · exact hk
      · exact List.mem_append_left [x] hk
    · obtain rfl := List.mem_singleton.1 hz
      by_cases hany : xs.eraseDups.any (z == ·) = true
      · -- The key that `z` repeats stands for the class.
        obtain ⟨k, hk, hzk⟩ := List.any_eq_true.1 hany
        have hkP : P k := hold k (mem_of_mem_eraseDups xs k hk)
        rw [if_pos hany]
        exact ⟨k, hk, h.trans k z y hkP hx hy (h.symm z k hx hkP hzk) hzy⟩
      · rw [if_neg hany]
        exact ⟨z, List.mem_append_right _ List.mem_cons_self, hzy⟩

end

/-! ### Last values -/

section

variable {es : List (κ × ν)} {k y : κ} {x : ν}

theorem lastFor_snoc (es : List (κ × ν)) (k : κ) (x : ν) (y : κ) :
    lastFor (es ++ [(k, x)]) y = if k == y then some x else lastFor es y := by
  rw [lastFor, List.reverse_concat, List.find?_cons]
  cases k == y <;> rfl

theorem lastFor_eq_none_iff : lastFor es y = none ↔ ∀ e ∈ es, (e.1 == y) = false := by
  simp [lastFor]

/-- Equal keys have the same last value. -/
theorem lastFor_congr (h : BeqOn P) (hes : ∀ e ∈ es, P e.1) (hk : P k) (hy : P y)
    (hky : (k == y) = true) : lastFor es k = lastFor es y := by
  induction es using List.reverseRecOn with
  | nil => rfl
  | append_singleton es e ih =>
    have he : P e.1 := hes e (List.mem_append_right es List.mem_cons_self)
    rw [lastFor_snoc, lastFor_snoc, h.congr_right hk hy he hky,
      ih fun e he => hes e (List.mem_append_left _ he)]

/-- Entries with the right keys and the right values are the ones that are left. -/
theorem eq_latest {ts : List (κ × ν)} (hkeys : ts.map Prod.fst = (es.map Prod.fst).eraseDups)
    (hvalues : ∀ e ∈ ts, lastFor es e.1 = some e.2) : ts = latest es := by
  rw [latest, ← hkeys, List.filterMap_map]
  refine Eq.trans List.filterMap_some.symm (List.filterMap_congr fun e he => ?_)
  show some e = (lastFor es e.1).map fun x => (e.1, x)
  rw [hvalues e he]
  rfl

/-- Entries of pairwise different keys are all left. -/
theorem lastFor_of_pairwise (h : BeqOn P) (hes : ∀ e ∈ es, P e.1)
    (hd : (es.map Prod.fst).Pairwise fun a b => (b == a) = false) :
    ∀ e ∈ es, lastFor es e.1 = some e.2 := by
  induction es using List.reverseRecOn with
  | nil => exact nofun
  | append_singleton es e ih =>
    obtain ⟨k, x⟩ := e
    intro e he
    rw [List.map_append] at hd
    obtain ⟨hd, -, hnew⟩ := List.pairwise_append.1 hd
    rw [lastFor_snoc]
    rcases List.mem_append.1 he with hold | hold
    · have hne : (k == e.1) = false :=
        hnew e.1 (List.mem_map_of_mem hold) k List.mem_cons_self
      rw [hne]
      exact ih (fun e he => hes e (List.mem_append_left _ he)) hd e hold
    · obtain rfl := List.mem_singleton.1 hold
      rw [if_pos (h.refl k (hes _ he))]

end

end ValueAlgebra
