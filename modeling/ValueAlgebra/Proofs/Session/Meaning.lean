import ValueAlgebra.Proofs.Session.Hashing
import ValueAlgebra.Proofs.Table.Index
import ValueAlgebra.Proofs.Writer.Taken

/-!
# What sets and maps mean

A set contains what is equal to something inserted into it and lists the first of every class of
equal elements; a map binds a key to what was inserted last for an equal one. It makes no difference
whether the collection is built at once or written, item by item or in batches, new or reopened: its
table is filled by the same insertions, and `Session.Records` says what they were.

## Main definitions

- `Session.Records`: the table of a set or map holds what was inserted
- `Session.MeansSet`, `Session.MeansMap`: what a collection says of the items inserted into it
-/

open Std (ExtTreeMap)

namespace ValueAlgebra

namespace Session

variable {s : Session} {v w : Value}

/-- The table holds what is left of the entries `es`, whose keys are at hand. -/
def Records {ν : Type} (s : Session) (t : Table Value ν) (es : List (Value × ν)) : Prop :=
  t.toHashTable.Records s.Has Value.hash es

/-- What a set says of the elements inserted into it. -/
structure MeansSet (s : Session) (v : Value) (xs : List Value) : Prop where
  elements : v.elements? = some xs.eraseDups
  size : ∃ t c es, v = .set t c es ∧ es.size = xs.eraseDups.length
  contains : ∀ y, s.Has y → (v.contains y = true ↔ ∃ x ∈ xs, (x == y) = true)

/-- What a map says of the entries inserted into it. -/
structure MeansMap (s : Session) (v : Value) (es : List (Value × Value)) : Prop where
  entries : v.entries? = some (latest es)
  keys : v.elements? = some (es.map Prod.fst).eraseDups
  size : ∃ t c ts, v = .map t c ts ∧ ts.size = (es.map Prod.fst).eraseDups.length
  get? : ∀ k, s.Has k → v.get? k = lastFor es k

namespace Coherent

theorem beqOn (h : s.Coherent) : BeqOn s.Has where
  refl v hv := h.equivalence.refl ⟨v, hv⟩
  symm v w hv hw := h.equivalence.symm (x := ⟨v, hv⟩) (y := ⟨w, hw⟩)
  trans u v w hu hv hw := h.equivalence.trans (x := ⟨u, hu⟩) (y := ⟨v, hv⟩) (z := ⟨w, hw⟩)

theorem hash_eq (h : s.Coherent) (v w : Value) (hv : s.Has v) (hw : s.Has w)
    (heq : (v == w) = true) : v.hash = w.hash := by
  rw [Value.hash, Value.hash, h.feed_eq_of_beq hv hw heq]

/-- The value that is sought and a key of the table may be compared in either order. -/
theorem isKey_eq (h : s.Coherent) (hv : s.Has v) (w : Value) (hw : s.Has w) :
    (v == w) = (w == v) :=
  h.beqOn.comm hv hw

variable {ν : Type} {t : Table Value ν} {es es' : List (Value × ν)}

/-- A table at hand holds its own entries. -/
theorem records_toList (h : s.Coherent) (ht : t.Sound) (hkeys : ∀ k ∈ t.keys, s.Has k) :
    s.Records t t.toList := by
  refine HashTable.records_toList h.beqOn ?_ ht.indexed (ht.distinct.imp_of_mem ?_)
  · exact fun e he => hkeys e.1 (Table.mem_keys.2 ⟨e, he, rfl⟩)
  · intro k k' hk hk' hne
    rw [h.beq_eq_same (hkeys k' hk') (hkeys k hk), hne]

theorem records_put (h : s.Coherent) (hr : s.Records t es) {k : Value} (hk : s.Has k) (x : ν) :
    s.Records (t.put k x) (es ++ [(k, x)]) := by
  rw [Records, Table.put, Table.toHashTable_insert]
  exact HashTable.Records.insert h.hash_eq h.beqOn hr hk (h.isKey_eq hk)

theorem records_foldl_put (h : s.Coherent) (hr : s.Records t es) (hes : ∀ e ∈ es', s.Has e.1) :
    s.Records (es'.foldl (fun t e => t.put e.1 e.2) t) (es ++ es') := by
  induction es' generalizing t es with
  | nil =>
    rw [List.append_nil]
    exact hr
  | cons e es' ih =>
    obtain ⟨he, hes⟩ := List.forall_mem_cons.1 hes
    rw [List.foldl_cons, List.append_cons]
    exact ih (h.records_put hr he e.2) hes

theorem records_empty : s.Records (∅ : Table Value ν) [] := HashTable.Records.empty

theorem hasKey_iff (h : s.Coherent) (hr : s.Records t es) {k : Value} (hk : s.Has k) :
    t.hasKey k = true ↔ ∃ e ∈ es, (e.1 == k) = true :=
  HashTable.Records.contains_iff h.hash_eq h.beqOn hr hk (h.isKey_eq hk)

theorem lookup_eq (h : s.Coherent) (hr : s.Records t es) {k : Value} (hk : s.Has k) :
    t.lookup k = lastFor es k :=
  HashTable.Records.get?_eq h.hash_eq h.beqOn hr hk (h.isKey_eq hk)

/-- A set whose table holds some elements means them. -/
theorem meansSet (h : s.Coherent) {es : Table Value Unit} {xs : List Value}
    (hr : s.Records es (xs.map fun x => (x, ()))) (t : Ty) (c : Cell) :
    s.MeansSet (.set t c es) xs := by
  have hkeys : (xs.map fun x => (x, ())).map Prod.fst = xs := by
    rw [List.map_map]
    exact List.map_id xs
  refine ⟨congrArg some (hr.keys.trans ?_), ⟨t, c, es, rfl, hr.size_eq.trans ?_⟩, fun y hy => ?_⟩
  · rw [hkeys]
  · rw [hkeys]
  · show es.hasKey y = true ↔ _
    rw [h.hasKey_iff hr hy]
    simp

theorem meansMap (h : s.Coherent) {ts : Table Value Value} {es : List (Value × Value)}
    (hr : s.Records ts es) (t : Ty) (c : Cell) : s.MeansMap (.map t c ts) es where
  entries := congrArg some hr.toList_eq
  keys := congrArg some hr.keys
  size := ⟨t, c, ts, rfl, hr.size_eq⟩
  get? _ hk := h.lookup_eq hr hk

/-- Tables of values and of writers that are open hold their own entries. -/
theorem records_of_grownSet (h : s.Coherent) {es : Table Value Unit} (hg : s.GrownSet es) :
    s.Records es es.toList := by
  refine h.records_toList (h.sound_of_grown hg ?_) hg.keys
  rintro t ⟨ty, c, ht⟩
  exact ⟨h.tables _ ht, fun k hk => ht.part hk⟩

theorem records_of_grownMap (h : s.Coherent) {es : Table Value Value} (hg : s.GrownMap es) :
    s.Records es es.toList := by
  refine h.records_toList (h.sound_of_grown hg ?_) hg.keys
  rintro t ⟨ty, c, ht⟩
  exact ⟨h.tables _ ht, fun k hk => ht.part (List.mem_append_left _ hk)⟩

end Coherent

/-! ### Tables that are filled -/

namespace Coherent

section Sets

variable {xs : List Value} {m : Manager} {b b' : SetBuffer}

theorem records_foldl_values (h : s.Coherent) (ys : List Value) {t : Table Value Unit}
    (hr : s.Records t (ys.map fun y => (y, ()))) (hxs : ∀ x ∈ xs, s.Has x) :
    s.Records (xs.foldl (fun t x => t.put x ()) t) ((ys ++ xs).map fun x => (x, ())) := by
  have hkeys : ∀ e ∈ xs.map fun x => (x, ()), s.Has e.1 := List.forall_mem_map.2 hxs
  have hput := h.records_foldl_put hr hkeys
  rw [List.foldl_map, ← List.map_append] at hput
  exact hput

theorem records_ofValues (h : s.Coherent) (hxs : ∀ x ∈ xs, s.Has x) :
    s.Records (Table.ofValues xs) (xs.map fun x => (x, ())) :=
  h.records_foldl_values [] records_empty hxs

/-- Elements that a buffer takes are inserted after those that it holds. -/
theorem meansSet_of_finish (h : s.Coherent) (hg : s.GrownSet b.elems) (hxs : ∀ x ∈ xs, s.Has x)
    (hb : xs.foldlM (Buffer.push m) b = .ok b') {c : Cell} (hv : Buffer.finish m c b' = .ok v) :
    s.MeansSet v (b.elems.keys ++ xs) := by
  obtain ⟨t, rfl⟩ := SetBuffer.of_finish hv
  refine h.meansSet ?_ t c
  have helems : b'.elems = xs.foldl (fun t x => t.put x ()) b.elems :=
    foldlM_eq_ok_foldl (fun _ _ _ => SetBuffer.elems_of_push) hb
  have hold : s.Records b.elems (b.elems.keys.map fun x => (x, ())) := by
    rw [Table.keys, List.map_map]
    exact (List.map_id b.elems.toList).symm ▸ h.records_of_grownSet hg
  rw [helems]
  exact h.records_foldl_values _ hold hxs

end Sets

section Maps

variable {es : List (Value × Value)} {m : Manager} {b b' : MapBuffer}

theorem records_ofEntries (h : s.Coherent) (hes : ∀ e ∈ es, s.HasEntry e) :
    s.Records (Table.ofEntries es) es :=
  h.records_foldl_put records_empty fun e he => (hes e he).1

theorem meansMap_of_finish (h : s.Coherent) (hg : s.GrownMap b.entries)
    (hes : ∀ e ∈ es, s.HasEntry e) (hb : es.foldlM (Buffer.push m) b = .ok b') {c : Cell}
    (hv : Buffer.finish m c b' = .ok v) : s.MeansMap v (b.entries.toList ++ es) := by
  obtain rfl := Except.ok.inj hv
  have hentries : b'.entries = es.foldl (fun t e => t.put e.1 e.2) b.entries :=
    foldlM_eq_ok_foldl (fun _ _ _ => MapBuffer.entries_of_push) hb
  refine h.meansMap ?_ _ c
  rw [hentries]
  exact h.records_foldl_put (h.records_of_grownMap hg) fun e he => (hes e he).1

/-- A map with one more entry. -/
theorem meansMap_of_put (h : s.Coherent) (hv : s.Has v) {k : Value} (hk : s.Has k) {x : Value}
    {c : Cell} (hw : Build.put m c v k x = .ok w) :
    ∃ es, v.entries? = some es ∧ s.MeansMap w (es ++ [(k, x)]) := by
  cases v with
  | map t c' ts =>
    obtain rfl := Except.ok.inj hw
    have hold : s.Records ts ts.toList := h.records_of_grownMap (.old ⟨t, c', hv⟩)
    exact ⟨ts.toList, rfl, h.meansMap (h.records_put hold hk x) _ c⟩
  | _ => cases hw

end Maps

end Coherent

/-- Sets and maps mean what was inserted into them, whether they are built at once, by a writer that
is new or reopens a collection, or by adding an entry to a map. Items that a writer refuses do not
count. The same holds of a table over any index and under any hashes that are equal for equal keys,
however many keys share one. -/
theorem Reachable.collections_mean (hs : s.Reachable) :
    (∀ (m : Manager) (c : Cell) (xs : List Value), (∀ x ∈ xs, s.Has x) →
      s.MeansSet (Build.set m c xs) xs) ∧
    (∀ (m : Manager) (b : SetBuffer) (feeds : List (Writer.Feed Value)) (c : Cell) (v : Value)
      (w : Writer SetBuffer), s.Opens (.set (.ofBuffer m b)) →
      (∀ feed ∈ feeds, ∀ x ∈ feed.items, s.Has x) →
      Writer.done c ((Writer.ofBuffer m b).after (feeds.map .feed)) = .ok v w →
      s.MeansSet v (b.elems.keys ++ (Writer.ofBuffer m b).takenOf feeds)) ∧
    (∀ (m : Manager) (c : Cell) (es : List (Value × Value)), (∀ e ∈ es, s.HasEntry e) →
      s.MeansMap (Build.map m c es) es) ∧
    (∀ (m : Manager) (b : MapBuffer) (feeds : List (Writer.Feed (Value × Value))) (c : Cell)
      (v : Value) (w : Writer MapBuffer), s.Opens (.map (.ofBuffer m b)) →
      (∀ feed ∈ feeds, ∀ e ∈ feed.items, s.HasEntry e) →
      Writer.done c ((Writer.ofBuffer m b).after (feeds.map .feed)) = .ok v w →
      s.MeansMap v (b.entries.toList ++ (Writer.ofBuffer m b).takenOf feeds)) ∧
    (∀ (m : Manager) (c : Cell) (v k x w : Value), s.Has v → s.Has k →
      Build.put m c v k x = .ok w → ∃ es, v.entries? = some es ∧ s.MeansMap w (es ++ [(k, x)])) ∧
    ∀ (ι ν : Type) [HashIndex ι] (hash : Value → UInt64) (es : List (Value × ν)),
      (∀ v w, s.Has v → s.Has w → (v == w) = true → hash v = hash w) → (∀ e ∈ es, s.Has e.1) →
      (HashTable.ofEntries hash es : HashTable ι Value ν).Means s.Has hash es := by
  have h := hs.coherent
  refine ⟨?set, ?setWriter, ?map, ?mapWriter, ?put, ?table⟩
  case set => exact fun m c xs hxs => h.meansSet (h.records_ofValues hxs) _ c
  case setWriter =>
    intro m b feeds c v w hopens hfeeds hdone
    obtain ⟨b', hafter, hb⟩ := Writer.after_feeds (m := m) feeds b
    rw [hafter] at hdone
    refine h.meansSet_of_finish (hopens.holds hs.typed.values b rfl).grown (fun x hx => ?_) hb
      (Writer.of_done_eq_ok hdone)
    obtain ⟨feed, hfeed, hx⟩ := Writer.exists_of_mem_takenOf _ feeds hx
    exact hfeeds feed hfeed x hx
  case map => exact fun m c es hes => h.meansMap (h.records_ofEntries hes) _ c
  case mapWriter =>
    intro m b feeds c v w hopens hfeeds hdone
    obtain ⟨b', hafter, hb⟩ := Writer.after_feeds (m := m) feeds b
    rw [hafter] at hdone
    refine h.meansMap_of_finish (hopens.holds hs.typed.values b rfl).grown (fun e he => ?_) hb
      (Writer.of_done_eq_ok hdone)
    obtain ⟨feed, hfeed, he⟩ := Writer.exists_of_mem_takenOf _ feeds he
    exact hfeeds feed hfeed e he
  case put => exact fun m c v k x w hv hk hw => h.meansMap_of_put hv hk hw
  case table =>
    intro ι ν _ hash es hhash hes
    exact (HashTable.Records.ofEntries hhash h.beqOn hes).means hhash h.beqOn

/-! ### Elements and keys that come twice -/

namespace Nested

/-- The elements of `third` as they are inserted. -/
def elements : List Value :=
  [noRows, negativeNaN, widened, zero, positiveNaN, minusZero, narrowed]

/-- The entries of `thirdMap` as they are inserted. -/
def entries : List (Value × Value) := [(noRows, zero), (second, first), (noNumbers, number)]

/-- A writer for a set of numbers. -/
def numbers : SetBuffer := .of manager.int false

/-- Gives it two doubles, which it refuses, and twice the number. -/
def feeds : List (Writer.Feed Value) :=
  [.insert zero, .insertAll [number, minusZero, number], .insert number]

def written : Value := .set (manager.set manager.int) 15 (.ofValues [number, number])

theorem opens_numbers : session.Opens (.set (.ofBuffer manager numbers)) :=
  have hint : ∀ t ∈ some manager.int, t.Made := by
    rintro _ ⟨⟩
    exact .basic manager .int
  .set manager hint

end Nested

open Nested in
/-- Equal elements are listed once and equal keys have their last value, also if all keys have one
hash. What the writer refuses is not in its set. -/
theorem means_nested :
    session.MeansSet third elements ∧ elements.eraseDups.length = 5 ∧
    session.MeansSet written [number, number] ∧ written.contains zero = false ∧
    session.MeansMap thirdMap entries ∧ thirdMap.get? noRows = some number ∧
    (HashTable.ofEntries (fun _ => 0) entries :
      HashTable (ExtTreeMap UInt64 (List Nat)) Value Value).Means session.Has (fun _ => 0)
        entries := by
  obtain ⟨hset, hsetWriter, hmap, -, -, htable⟩ := reachable_session.collections_mean
  have helements : ∀ x ∈ elements, session.Has x := by
    simp [elements, has_of_mem, session, sets, parts, scalars, add]
  have hentries : ∀ e ∈ entries, session.HasEntry e := by
    simp [entries, HasEntry, has_of_mem, session, sets, parts, scalars, add]
  have hfeeds : ∀ feed ∈ feeds, ∀ x ∈ feed.items, session.Has x := by
    simp [feeds, Writer.Feed.items, has_of_mem, session, sets, parts, scalars, add]
  have hnoRows : session.Has noRows := helements _ List.mem_cons_self
  have hzero : session.Has zero := helements _ (by simp [elements])
  have hwritten : session.MeansSet written [number, number] :=
    hsetWriter manager numbers feeds 15 written _ opens_numbers hfeeds rfl
  have hthirdMap : session.MeansMap thirdMap entries := hmap manager 14 entries hentries
  refine ⟨hset manager 11 elements helements, by decide +kernel, hwritten, ?_, hthirdMap, ?_, ?_⟩
  · refine Bool.eq_false_iff.2 fun hcontains => ?_
    have hnone : [number, number].any (· == zero) = false := by decide +kernel
    rw [List.any_eq_true.2 ((hwritten.contains zero hzero).1 hcontains)] at hnone
    cases hnone
  · have hsplit : entries = [(noRows, zero), (second, first)] ++ [(noNumbers, number)] := rfl
    have heq : (noNumbers == noRows) = true := by decide +kernel
    rw [hthirdMap.get? noRows hnoRows, hsplit, lastFor_snoc, if_pos heq]
  · exact htable _ _ (fun _ => 0) entries (fun _ _ _ _ _ => rfl) fun e he => (hentries e he).1

end Session

end ValueAlgebra
