import ValueAlgebra.Build.Make
import ValueAlgebra.Proofs.Session.Writing

/-!
# What `make` makes

`Build.make` fills a buffer of declared type or checks fields, and then replaces the type of what
it made by the type asked for. That is sound since both have, aliases stripped, the same structure.
-/

namespace ValueAlgebra

namespace Ty

/-- Below a basic type other than `value` are only `void` and the type itself. -/
theorem unalias_of_isBelow_basic {b : BasicTy} (hb : b ≠ .value) {o : Origin} : ∀ {t : Ty},
    t.isBelow (basic o b) = true → t.kind ≠ .void → ∃ o', t.unalias = basic o' b
  | aliased _ _ t, h, hk => by
    rw [isBelow_aliased] at h
    exact unalias_of_isBelow_basic (t := t) hb h hk
  | basic o' c, h, hk => by
    refine ⟨o', ?_⟩
    cases c <;> cases b <;> simp_all [isBelow, unalias, kind, BasicTy.kind]
  | tuple .., h, _ | list .., h, _ | set .., h, _ | relation .., h, _ | map .., h, _ | adt .., h, _
  | constructor .., h, _ => by cases b <;> simp_all [isBelow]

end Ty

namespace Session

variable {s : Session} {m : Manager} {ty : Ty} {children : List Value} {v : Value}

/-- A value of a scalar type is handed on as it is. -/
theorem makeScalar_eq_ok (hs : s.TypedValues) (h : ∀ v ∈ children, s.Has v) {o : Origin}
    {b : BasicTy} (hb : b ≠ .value) (ht : ty.unalias = .basic o b)
    (hv : Build.makeScalar ty children = .ok v) :
    s.Admits v ∧ v.ty.unalias.shape = ty.unalias.shape := by
  unfold Build.makeScalar at hv
  split at hv
  · next child =>
    split at hv
    · next hle =>
      obtain rfl := Except.ok.inj hv
      have hchild := h child (List.mem_singleton.2 rfl)
      refine ⟨hs.admits_of_has hchild, ?_⟩
      rw [Ty.isSubtypeOf, ht] at hle
      obtain ⟨o', hty⟩ := Ty.unalias_of_isBelow_basic hb hle (hs.kind_ty_ne_void hchild)
      rw [hty, ht, Ty.shape, Ty.shape]
    · cases hv
  · cases hv

theorem buildList_eq_ok (hs : s.TypedValues) (h : ∀ v ∈ children, s.Has v) {e : Ty}
    (he : e.WellFormed) (hv : Buffer.build m s.next (ListBuffer.of e) children = .ok v) :
    s.Admits v ∧ v.ty = m.list e := by
  have hstart : ListBuffer.Holds s (.of e) := ListBuffer.holds_empty he
  obtain ⟨b, ⟨hb, hd⟩, hv⟩ := Buffer.build_eq_ok
    (P := fun b => ListBuffer.Holds s b ∧ b.elem = .declared e) ⟨hstart, rfl⟩
    (fun b i hi b' hb hpush => by
      refine ⟨TrackedBuffer.push_holds hs hb.1 (h i hi) hpush, ?_⟩
      obtain ⟨e', he', hpush⟩ := bind_eq_ok.1 hpush
      obtain rfl := pure_eq_ok.1 hpush
      exact ElementType.accept_declared (hb.2 ▸ he')) hv
  refine ⟨TrackedBuffer.finish_admits hs hb hv, ?_⟩
  obtain rfl := Except.ok.inj hv
  rw [hd]
  rfl

theorem relationType_of_isTuple {e : Ty} (h : e.isTuple = true) :
    Build.relationType m e = m.relationOver e := by
  have hvoid : e.kind ≠ .void := by
    rw [Ty.isTuple, beq_iff_eq] at h
    rw [h]
    decide
  rw [Build.relationType, if_neg hvoid]

theorem buildSet_eq_ok (hs : s.TypedValues) (h : ∀ v ∈ children, s.Has v) {e : Ty}
    (he : e.WellFormed) {relation : Bool} (hr : relation = true → e.isTuple = true)
    (hv : Buffer.build m s.next (SetBuffer.of e relation) children = .ok v) :
    s.Admits v ∧ v.ty = m.set e := by
  have hstart : SetBuffer.Holds s (.of e relation) := SetBuffer.holds_empty he
  obtain ⟨b, ⟨hb, hd, hbr⟩, hv⟩ := Buffer.build_eq_ok
    (P := fun b => SetBuffer.Holds s b ∧ b.elem = .declared e ∧ b.relation = relation)
    ⟨hstart, rfl, rfl⟩
    (fun b i hi b' hb hpush => by
      refine ⟨TrackedBuffer.push_holds hs hb.1 (h i hi) hpush, ?_⟩
      simp only [Buffer.push] at hpush
      split at hpush
      · cases hpush
      obtain ⟨e', he', hpush⟩ := bind_eq_ok.1 hpush
      obtain rfl := pure_eq_ok.1 hpush
      exact ⟨ElementType.accept_declared (hb.2.1 ▸ he'), hb.2.2⟩) hv
  refine ⟨TrackedBuffer.finish_admits hs hb hv, ?_⟩
  simp only [Buffer.finish] at hv
  split at hv
  · next hrel =>
    have htuple := hr (hbr ▸ hrel)
    obtain ⟨t, ht, hv⟩ := bind_eq_ok.1 hv
    obtain rfl := pure_eq_ok.1 hv
    -- A relation is made only over tuples, where the writer's type and the set's agree.
    rw [hd, ElementType.ty, relationType_of_isTuple htuple] at ht
    obtain ⟨-, rfl⟩ := Ty.relationOver_eq_ok.1 ht
    simp [Value.ty, Manager.set, htuple]
  · obtain rfl := Except.ok.inj hv
    rw [hd]
    rfl

theorem mem_of_mem_pairs {α : Type} {p : α × α} : ∀ {l : List α}, p ∈ Build.pairs l →
    p.1 ∈ l ∧ p.2 ∈ l
  | a :: b :: l, h => by
    rcases List.mem_cons.1 h with rfl | h
    · exact ⟨List.mem_cons_self, List.mem_cons_of_mem _ List.mem_cons_self⟩
    · obtain ⟨h₁, h₂⟩ := mem_of_mem_pairs h
      exact ⟨List.mem_cons_of_mem _ (List.mem_cons_of_mem _ h₁),
        List.mem_cons_of_mem _ (List.mem_cons_of_mem _ h₂)⟩

theorem buildMap_eq_ok {entries : List (Value × Value)} (hs : s.TypedValues)
    (h : ∀ e ∈ entries, s.HasEntry e) {k x : Ty} (hk : k.WellFormed) (hx : x.WellFormed)
    (hv : Buffer.build m s.next (MapBuffer.of k x) entries = .ok v) :
    s.Admits v ∧ v.ty = m.map k x := by
  have hstart : MapBuffer.Holds s (.of k x) := MapBuffer.holds_empty hk hx
  obtain ⟨b, ⟨hb, hdk, hdx⟩, hv⟩ := Buffer.build_eq_ok
    (P := fun b => MapBuffer.Holds s b ∧ b.key = .declared k ∧ b.val = .declared x)
    ⟨hstart, rfl, rfl⟩
    (fun b i hi b' hb hpush => by
      refine ⟨TrackedBuffer.push_holds hs hb.1 (h i hi) hpush, ?_⟩
      obtain ⟨k', hk', hpush⟩ := bind_eq_ok.1 hpush
      obtain ⟨x', hx', hpush⟩ := bind_eq_ok.1 hpush
      obtain rfl := pure_eq_ok.1 hpush
      exact ⟨ElementType.accept_declared (hb.2.1 ▸ hk'),
        ElementType.accept_declared (hb.2.2 ▸ hx')⟩) hv
  refine ⟨TrackedBuffer.finish_admits hs hb hv, ?_⟩
  obtain rfl := Except.ok.inj hv
  rw [hdk, hdx]
  rfl

theorem makeContents_eq_ok (hs : s.TypedValues) (hty : ty.WellFormed)
    (h : ∀ v ∈ children, s.Has v) (hv : Build.makeContents m s.next ty children = .ok v) :
    s.Admits v ∧ v.ty.unalias.shape = ty.unalias.shape := by
  have hwf := hty.unalias
  unfold Build.makeContents at hv
  split at hv
  · next ht => exact makeScalar_eq_ok hs h (by decide) ht hv
  · next ht => exact makeScalar_eq_ok hs h (by decide) ht hv
  · next ht => exact makeScalar_eq_ok hs h (by decide) ht hv
  · next ht => exact makeScalar_eq_ok hs h (by decide) ht hv
  · next ht => exact makeScalar_eq_ok hs h (by decide) ht hv
  · next o e ht =>
    rw [ht] at hwf ⊢
    obtain ⟨hadm, hvt⟩ := buildList_eq_ok hs h hwf.elem_of_list hv
    exact ⟨hadm, by rw [hvt]; rfl⟩
  · next o e ht =>
    rw [ht] at hwf ⊢
    obtain ⟨hadm, hvt⟩ := buildSet_eq_ok hs h hwf.elem_of_set (by nofun) hv
    refine ⟨hadm, ?_⟩
    cases hwf with
    | set _ he _ =>
      rw [hvt, Manager.set, he]
      rfl
  · next o row ht =>
    rw [ht] at hwf ⊢
    -- Making a relation checks its row, which is how the set type comes out as a relation.
    obtain ⟨_, hrow, hv⟩ := bind_eq_ok.1 hv
    obtain ⟨htuple, -⟩ := Ty.relationOver_eq_ok.1 hrow
    obtain ⟨hadm, hvt⟩ := buildSet_eq_ok hs h hwf.row_of_relation (fun _ => htuple) hv
    refine ⟨hadm, ?_⟩
    rw [hvt, Manager.set, htuple]
    rfl
  · next o k x ht =>
    rw [ht] at hwf ⊢
    split at hv
    · obtain ⟨hadm, hvt⟩ := buildMap_eq_ok hs
        (fun e he => ⟨h _ (mem_of_mem_pairs he).1, h _ (mem_of_mem_pairs he).2⟩)
        hwf.key_of_map hwf.val_of_map hv
      exact ⟨hadm, by rw [hvt]; rfl⟩
    · cases hv
  · next o fs ht =>
    obtain ⟨⟨⟩, hfs, hv⟩ := bind_eq_ok.1 hv
    obtain rfl := pure_eq_ok.1 hv
    exact ⟨⟨⟨o, fs, ht, checkFields_eq_ok.1 hfs⟩, hty, h, trivial,
      fun _ hc => .inl (Option.some.inj hc).symm⟩, rfl⟩
  · next ht =>
    refine ⟨admits_constructor hty h hv, ?_⟩
    unfold Build.constructor at hv
    split at hv
    · obtain ⟨-, -, hv⟩ := bind_eq_ok.1 hv
      obtain rfl := pure_eq_ok.1 hv
      rfl
    · cases hv
  · cases hv

theorem admits_make (hs : s.TypedValues) (hty : ty.WellFormed) (h : ∀ v ∈ children, s.Has v)
    (hv : Build.make m s.next ty children = .ok v) : s.Admits v := by
  obtain ⟨w, hw, hv⟩ := bind_eq_ok.1 hv
  obtain rfl := pure_eq_ok.1 hv
  obtain ⟨hadm, hshape⟩ := makeContents_eq_ok hs hty h hw
  exact hadm.withTy hty hshape

/-- Every value that a call makes is one that the session admits. -/
theorem Makes.admits (hs : s.TypedValues) (h : s.Makes v) : s.Admits v := by
  cases h with
  | int | double | bool => exact ⟨rfl, .basic _ _, nofun, trivial, nofun⟩
  | str | loc =>
    exact ⟨rfl, .basic _ _, nofun, trivial, fun _ hc => .inl (Option.some.inj hc).symm⟩
  | tuple m h => exact admits_tuple hs h
  | list m h => exact admits_list hs h
  | set m h => exact admits_set hs h
  | relation m h hv => exact admits_relation hs h hv
  | map m h => exact admits_map hs h
  | node m name h => exact admits_node h name
  | constructor ht h hv => exact admits_constructor ht.wellFormed h hv
  | construct hst h hv => exact admits_construct hst h hv
  | emptyList m h => exact admits_emptyList h.wellFormed
  | emptySet m h => exact admits_emptySet h.wellFormed
  | emptyMap m hk hv => exact admits_emptyMap hk.wellFormed hv.wellFormed
  | emptyRelation m h hv => exact admits_emptyRelation h.wellFormed hv
  | make m ht h hv => exact admits_make hs ht.wellFormed h hv
  | put m h hk hx hw => exact admits_put hs h hk hx hw

end Session

end ValueAlgebra
