import ValueAlgebra.Proofs.Session.Extensional
import ValueAlgebra.Proofs.Session.Shaped
import ValueAlgebra.Proofs.Ty.Bounds

/-!
# Maps with more entries

Entries can be added to a map one by one, each time making another map, or by a writer that reopens
it. The tables are the same, since both insert the same entries into the same table. The types are
made along different paths: adding an entry keeps a side of the type that the entry fits and joins
the two otherwise, while the writer joins all types and rebuilds the type of the map. Both end at a
least type above the first one and all that was added, so the types are equivalent.

## Main definitions

- `Build.putAll`: adding entries one by one
- `Value.PutsLike`: how the two ways agree
-/

namespace ValueAlgebra

namespace Build

/-- Adds entries to a map one after the other. Each of the maps is stored in the next free cell. -/
def putAll (m : Manager) : Cell → Value → List (Value × Value) → Except TypeError Value
  | _, v, [] => .ok v
  | c, v, e :: es => do
    let w ← put m c v e.1 e.2
    putAll m (c + 1) w es

end Build

namespace Value

/-- The entry fits the key type and the value type of a map. -/
def FitsEntry (t : Ty) (e : Value × Value) : Prop :=
  ∃ k x, t.key? = some k ∧ t.val? = some x ∧ e.1.ty.isSubtypeOf k = true ∧
    e.2.ty.isSubtypeOf x = true

/-- The map `w`, to which entries were put, has the entries of the map `w'`, for which they were
written, and an equivalent type. Its type is above that of the first map `v`, and the same if all
entries fit that. -/
structure PutsLike (v : Value) (es : List (Value × Value)) (w w' : Value) : Prop where
  entries : ∃ ts, w.entries? = some ts ∧ w'.entries? = some ts
  isEquivalentTo : w.ty.isEquivalentTo w'.ty = true
  isSubtypeOf : v.ty.isSubtypeOf w.ty = true
  ty_eq : (∀ e ∈ es, FitsEntry v.ty e) → w.ty = v.ty

end Value

section Types

variable {m : Manager} {t u k x k' x' : Ty} {o o' : Origin}

/-- Widening is a way to join two types. -/
theorem Build.widen_isJoin (m : Manager) (t u : Ty) (ht : t.WellFormed) (hu : u.WellFormed) :
    Ty.IsJoin t u (Build.widen m t u) := by
  unfold Build.widen
  split
  · next h => exact (Ty.IsJoin.of_isSubtypeOf h ht).symm
  · exact Ty.lub_isJoin m t u ht hu

theorem Ty.key?_of_unalias (ht : t.unalias = .map o k x) : t.key? = some k := by
  rw [Ty.key?, ht]

theorem Ty.val?_of_unalias (ht : t.unalias = .map o k x) : t.val? = some x := by
  rw [Ty.val?, ht]

theorem Ty.isSubtypeOf_of_unalias_map (ht : t.unalias = .map o k x)
    (hu : u.unalias = .map o' k' x') (hk : k.isSubtypeOf k' = true)
    (hx : x.isSubtypeOf x' = true) : t.isSubtypeOf u = true := by
  rw [← Ty.isSubtypeOf_unalias_left, ← Ty.isSubtypeOf_unalias_right, ht, hu]
  exact Ty.isSubtypeOf_map.2 ⟨hk, hx⟩

theorem Value.fitsEntry_iff (ht : t.unalias = .map o k x) {e : Value × Value} :
    Value.FitsEntry t e ↔ e.1.ty.isSubtypeOf k = true ∧ e.2.ty.isSubtypeOf x = true := by
  simp [Value.FitsEntry, Ty.key?_of_unalias ht, Ty.val?_of_unalias ht]

end Types

namespace Build

variable {t k x : Ty} {o : Origin}

/-- One entry is put into the table, and each side of the type is widened. -/
theorem put_map (ht : t.unalias = .map o k x) (m : Manager) (c c₀ : Cell)
    (ts : Table Value Value) (key val : Value) :
    ∃ t' o', put m c (.map t c₀ ts) key val = .ok (.map t' c (ts.put key val)) ∧
      t'.unalias = .map o' (widen m k key.ty) (widen m x val.ty) ∧
      (Value.FitsEntry t (key, val) → t' = t) := by
  have hput : put m c (.map t c₀ ts) key val =
      .ok (.map (if widen m k key.ty = k ∧ widen m x val.ty = x then t
        else m.map (widen m k key.ty) (widen m x val.ty)) c (ts.put key val)) := by
    simp only [put, Ty.key?_of_unalias ht, Ty.val?_of_unalias ht, Option.getD_some]
  by_cases hsame : widen m k key.ty = k ∧ widen m x val.ty = x
  · rw [if_pos hsame] at hput
    exact ⟨t, o, hput, by rw [hsame.1, hsame.2, ht], fun _ => rfl⟩
  · rw [if_neg hsame] at hput
    refine ⟨_, m.origin, hput, rfl, fun hfits => absurd ?_ hsame⟩
    obtain ⟨hkey, hval⟩ := (Value.fitsEntry_iff ht).1 hfits
    exact ⟨if_pos hkey, if_pos hval⟩

/-- All entries go into the table, and the types of their keys and values into those of the map. -/
theorem putAll_map (ht : t.unalias = .map o k x) (m : Manager) (c c₀ : Cell)
    (ts : Table Value Value) (es : List (Value × Value)) :
    ∃ t' c' o', putAll m c (.map t c₀ ts) es =
        .ok (.map t' c' (es.foldl (fun ts e => ts.put e.1 e.2) ts)) ∧
      t'.unalias = .map o' ((es.map (·.1.ty)).foldl (widen m) k)
        ((es.map (·.2.ty)).foldl (widen m) x) ∧
      ((∀ e ∈ es, Value.FitsEntry t e) → t' = t) := by
  induction es generalizing c c₀ t o k x ts with
  | nil => exact ⟨t, c₀, o, rfl, ht, fun _ => rfl⟩
  | cons e es ih =>
    obtain ⟨t₁, o₁, hput, ht₁, hkept₁⟩ := put_map ht m c c₀ ts e.1 e.2
    obtain ⟨t', c', o', hrest, ht', hkept⟩ := ih ht₁ (c + 1) c (ts.put e.1 e.2)
    refine ⟨t', c', o', ?_, ht', fun hfits => ?_⟩
    · rw [putAll, hput]
      exact hrest
    · obtain ⟨he, hes⟩ := List.forall_mem_cons.1 hfits
      have heq := hkept₁ he
      exact (hkept fun e' he' => heq.symm ▸ hes e' he').trans heq

end Build

/-! ### The writer of a map that is reopened -/

/-- A buffer that infers its types takes all entries. -/
theorem MapBuffer.foldlM_push_inferred (m : Manager) (es : List (Value × Value)) (k x : Ty)
    (ts : Table Value Value) :
    es.foldlM (Buffer.push m) (⟨.inferred k, .inferred x, ts⟩ : MapBuffer) =
      .ok ⟨.inferred ((es.map (·.1.ty)).foldl (Ty.lub m) k),
        .inferred ((es.map (·.2.ty)).foldl (Ty.lub m) x),
        es.foldl (fun ts e => ts.put e.1 e.2) ts⟩ := by
  induction es generalizing k x ts with
  | nil => rfl
  | cons e es ih =>
    rw [List.foldlM_cons]
    exact ih (k.lub m e.1.ty) (x.lub m e.2.ty) (ts.put e.1 e.2)

/-- The writer of a map joins all types and puts all entries into the table of the map. -/
theorem Value.returned_collect_map {t k x : Ty} {o : Origin} (ht : t.unalias = .map o k x)
    (m : Manager) (c c₀ : Cell) (ts : Table Value Value)
    (feeds : List (Writer.Feed (Value × Value))) :
    ∃ writer, (Value.map t c₀ ts).toMapWriter? m = some writer ∧
      returned (Writer.collect feeds c) writer =
        .ok (.map (m.map (((feeds.flatMap Writer.Feed.items).map (·.1.ty)).foldl (Ty.lub m) k)
          (((feeds.flatMap Writer.Feed.items).map (·.2.ty)).foldl (Ty.lub m) x)) c
          ((feeds.flatMap Writer.Feed.items).foldl (fun ts e => ts.put e.1 e.2) ts)) := by
  have hbuffer : (Value.map t c₀ ts).toMapWriter? m =
      some (.ofBuffer m ⟨.inferred k, .inferred x, ts⟩) := by
    rw [Value.toMapWriter?, Ty.key?_of_unalias ht, Ty.val?_of_unalias ht]
    rfl
  refine ⟨_, hbuffer, ?_⟩
  rw [Writer.returned_collect, Buffer.build, MapBuffer.foldlM_push_inferred]
  rfl

namespace Session

variable {s : Session} {v : Value} {es : List (Value × Value)}

/-- Both ways lead to equivalent sides. -/
theorem foldl_widen_isEquivalentTo {types : List Ty} {k : Ty} (hk : k.WellFormed)
    (h : ∀ t ∈ types, t.WellFormed) (m m' : Manager) :
    k.isSubtypeOf (types.foldl (Build.widen m) k) = true ∧
      (types.foldl (Build.widen m) k).isEquivalentTo (types.foldl (Ty.lub m') k) = true := by
  have hwiden := (Ty.IsLeastAbove.singleton k).foldl (Build.widen_isJoin m) hk h
  have hlub := (Ty.IsLeastAbove.singleton k).foldl (Ty.lub_isJoin m') hk h
  exact ⟨hwiden.above k List.mem_cons_self,
    hwiden.isEquivalentTo hlub (List.Subset.refl _) (List.Subset.refl _)⟩

theorem TypedValues.putsLike (hs : s.TypedValues) (hv : s.Has v) (hkind : v.kind = .map)
    (hes : ∀ e ∈ es, s.HasEntry e) (m m' : Manager) (c c' : Cell)
    {feeds : List (Writer.Feed (Value × Value))}
    (hfeeds : feeds.flatMap Writer.Feed.items = es) :
    ∃ writer w w', v.toMapWriter? m' = some writer ∧ Build.putAll m c v es = .ok w ∧
      returned (Writer.collect feeds c') writer = .ok w' ∧ v.PutsLike es w w' := by
  obtain ⟨t, c₀, ts, rfl⟩ := Value.eq_map_of_hasKind (by rw [Value.hasKind, hkind]; rfl)
  obtain ⟨⟨o, k, x, ht, -, -⟩, hwf⟩ := hs _ hv
  have hwf := hwf.unalias
  rw [Value.ty, ht] at hwf
  have hkeys : ∀ u ∈ es.map (·.1.ty), u.WellFormed :=
    List.forall_mem_map.2 fun e he => (hs e.1 (hes e he).1).2
  have hvals : ∀ u ∈ es.map (·.2.ty), u.WellFormed :=
    List.forall_mem_map.2 fun e he => (hs e.2 (hes e he).2).2
  obtain ⟨hk, hkequiv⟩ := foldl_widen_isEquivalentTo hwf.key_of_map hkeys m m'
  obtain ⟨hx, hxequiv⟩ := foldl_widen_isEquivalentTo hwf.val_of_map hvals m m'
  obtain ⟨t', c₁, o', hput, ht', hkept⟩ :=
    Build.putAll_map ht m c c₀ ts es
  obtain ⟨writer, hwriter, hcollect⟩ :=
    Value.returned_collect_map ht m' c' c₀ ts feeds
  rw [hfeeds] at hcollect
  refine ⟨writer, _, _, hwriter, hput, hcollect, ⟨_, rfl, rfl⟩, ?_, ?_, hkept⟩
  · obtain ⟨hk₁, hk₂⟩ := Ty.isEquivalentTo_iff.1 hkequiv
    obtain ⟨hx₁, hx₂⟩ := Ty.isEquivalentTo_iff.1 hxequiv
    exact Ty.isEquivalentTo_iff.2 ⟨Ty.isSubtypeOf_of_unalias_map ht' rfl hk₁ hx₁,
      Ty.isSubtypeOf_of_unalias_map rfl ht' hk₂ hx₂⟩
  · exact Ty.isSubtypeOf_of_unalias_map ht ht' hk hx

/-- A map with one more entry binds the key to the value and all other keys as before. -/
theorem Coherent.get?_put (h : s.Coherent) (hs : s.TypedValues) (hv : s.Has v)
    (hkind : v.kind = .map) {k x : Value} (hk : s.Has k) (m : Manager) (c : Cell) :
    ∃ w, Build.put m c v k x = .ok w ∧
      ∀ k', s.Has k' → w.get? k' = if k == k' then some x else v.get? k' := by
  obtain ⟨t, c₀, ts, rfl⟩ := Value.eq_map_of_hasKind (by rw [Value.hasKind, hkind]; rfl)
  obtain ⟨⟨o, key, val, ht, -, -⟩, -⟩ := hs _ hv
  obtain ⟨t', o', hput, -, -⟩ := Build.put_map ht m c c₀ ts k x
  have hold : s.Records ts ts.toList := h.records_of_grownMap (.old ⟨t, c₀, hv⟩)
  refine ⟨_, hput, fun k' hk' => ?_⟩
  show (ts.put k x).lookup k' = if k == k' then some x else ts.lookup k'
  rw [h.lookup_eq (h.records_put hold hk x) hk', h.lookup_eq hold hk', lastFor_snoc]

/-- Entries put into a map one by one make the map that its writer makes of them, with a type that
is equivalent, above the first one and, if all entries fit, the first one itself. One entry that is
put is found under its key, and what is found under other keys stays. -/
theorem Reachable.putAll_putsLike (hs : s.Reachable) (hv : s.Has v) (hkind : v.kind = .map)
    (m m' : Manager) (c c' : Cell) :
    (∀ es feeds, (∀ e ∈ es, s.HasEntry e) → feeds.flatMap Writer.Feed.items = es →
      ∃ writer w w', v.toMapWriter? m' = some writer ∧ Build.putAll m c v es = .ok w ∧
        returned (Writer.collect feeds c') writer = .ok w' ∧ v.PutsLike es w w') ∧
    ∀ k x, s.Has k → ∃ w, Build.put m c v k x = .ok w ∧ w.get? k = some x ∧
      ∀ k', s.Has k' → (k' == k) = false → w.get? k' = v.get? k' := by
  have htyped := hs.typed.values
  have h := hs.coherent
  refine ⟨fun es feeds hes hfeeds => ?_, fun k x hk => ?_⟩
  · exact htyped.putsLike hv hkind hes m m' c c' hfeeds
  · obtain ⟨w, hw, hget⟩ := h.get?_put htyped hv hkind (x := x) hk m c
    refine ⟨w, hw, ?_, fun k' hk' hne => ?_⟩
    · rw [hget k hk, if_pos (h.beqOn.refl k hk)]
    · rw [hget k' hk', h.beqOn.comm hk hk', hne]
      rfl

namespace Nested

/-- The entries of two doubles, under the name of a type. -/
def indexed : Value :=
  .map index session.next (Table.ofEntries [(positiveNaN, number), (zero, first)])

theorem make_indexed :
    Build.make manager session.next index [positiveNaN, number, zero, first] = .ok indexed := by
  have hbuild : Buffer.build manager session.next (MapBuffer.of manager.double manager.value)
      [(positiveNaN, number), (zero, first)] = .ok (indexed.withTy (manager.map _ _)) :=
    MapBuffer.build_eq_ok_iff.2 ⟨by decide +kernel, rfl⟩
  show (Buffer.build manager session.next (MapBuffer.of manager.double manager.value)
    [(positiveNaN, number), (zero, first)] >>= _) = _
  rw [hbuild]
  rfl

theorem reachable_indexed : (session.add indexed).Reachable := by
  have hheld : ∀ v ∈ [positiveNaN, number, zero, first], session.Has v := by
    simp [has_of_mem, session, sets, parts, scalars, add]
  exact .make reachable_session (.make manager made_index hheld make_indexed)

end Nested

open Nested in
/-- An entry that fits keeps the name of the type. A number as a key does not fit, but is taken by
both ways. -/
theorem putAll_indexed :
    (∃ w, Build.putAll manager 16 indexed [(negativeNaN, zero)] = .ok w ∧ w.ty = index) ∧
    (∃ writer w w', indexed.toMapWriter? manager = some writer ∧
      Build.putAll manager 16 indexed [(negativeNaN, zero), (number, first)] = .ok w ∧
      returned (Writer.collect [.insert (negativeNaN, zero), .insertAll [(number, first)]] 18)
        writer = .ok w' ∧
      w.ty.isEquivalentTo w'.ty = true ∧ index.isSubtypeOf w.ty = true) ∧
    ∃ w, Build.put manager 16 indexed negativeNaN second = .ok w ∧
      w.get? negativeNaN = some second ∧ w.get? zero = indexed.get? zero := by
  have hindexed : (session.add indexed).Has indexed := has_of_mem (.head _)
  have hheld : ∀ v ∈ [number, negativeNaN, zero, first], (session.add indexed).Has v := by
    simp [has_of_mem, session, sets, parts, scalars, add]
  obtain ⟨hnumber, hnaN, hzero, hfirst, -⟩ := by simpa only [List.forall_mem_cons] using hheld
  obtain ⟨hputs, hput⟩ := reachable_indexed.putAll_putsLike hindexed rfl manager manager 16 18
  refine ⟨?_, ?_, ?_⟩
  · obtain ⟨-, w, _, -, hw, -, hlike⟩ := hputs [(negativeNaN, zero)] [.insert (negativeNaN, zero)]
      (List.forall_mem_singleton.2 ⟨hnaN, hzero⟩) rfl
    refine ⟨w, hw, hlike.ty_eq (List.forall_mem_singleton.2 ?_)⟩
    exact (Value.fitsEntry_iff rfl).2 (by decide +kernel)
  · obtain ⟨writer, w, w', hwriter, hw, hw', hlike⟩ := hputs [(negativeNaN, zero), (number, first)]
      [.insert (negativeNaN, zero), .insertAll [(number, first)]]
      (List.forall_mem_cons.2 ⟨⟨hnaN, hzero⟩, List.forall_mem_singleton.2 ⟨hnumber, hfirst⟩⟩) rfl
    exact ⟨writer, w, w', hwriter, hw, hw', hlike.isEquivalentTo, hlike.isSubtypeOf⟩
  · obtain ⟨w, hw, hsame, hother⟩ := hput negativeNaN second hnaN
    exact ⟨w, hw, hsame, hother zero hzero (by decide +kernel)⟩

end Session

end ValueAlgebra
