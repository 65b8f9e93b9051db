import ValueAlgebra.Proofs.Writer.Taken

/-!
# Items that are refused leave no trace

Which items a writer takes is settled by the types that were declared for it, and nothing that it is
given changes that: an item either fits or it does not, whatever came before. One that does not fit
is refused with an error of types and leaves the writer as it was, also where a part of it fits, as
the key of an entry may. So a writer ends up as if it had been given the items that fit and no
others, and a batch goes in up to the first item that does not.

## Main definitions

- `FittingBuffer`: which items a buffer of some sort takes
- `Writer.inserts`: a call for each of some items
- `Writer.RefusesUnfit`: items that do not fit are refused and leave no trace
-/

namespace ValueAlgebra

/-- Whether an element of type `t` fits: it must be below the declared type, if there is one. -/
def ElementType.fits : ElementType → Ty → Bool
  | declared d, t => t.isSubtypeOf d
  | inferred _, _ => true

/-- An item that fits is taken, and then the same items fit as before. Any other is refused. -/
class FittingBuffer (β : Type) (ι : outParam Type) [Buffer β ι] where
  fits : β → ι → Bool
  push_of_fits {m : Manager} {b : β} {item : ι} (h : fits b item = true) :
    ∃ b', Buffer.push m b item = .ok b' ∧ fits b' = fits b
  push_of_not_fits {m : Manager} {b : β} {item : ι} (h : fits b item = false) :
    ∃ e, Buffer.push m b item = .error e

namespace ElementType

variable {m : Manager} {elem : ElementType} {t : Ty}

theorem accept_of_fits (h : elem.fits t = true) :
    ∃ elem', elem.accept m t = .ok elem' ∧ elem'.fits = elem.fits := by
  cases elem with
  | declared d => exact ⟨declared d, if_pos h, rfl⟩
  | inferred u => exact ⟨inferred (u.lub m t), rfl, rfl⟩

theorem accept_of_not_fits (h : elem.fits t = false) : ∃ e, elem.accept m t = .error e := by
  cases elem with
  | declared d => exact ⟨.mismatch d t, if_neg (Bool.eq_false_iff.1 h)⟩
  | inferred u => cases h

end ElementType

/-! ### The four sorts of buffer -/

instance : FittingBuffer TupleBuffer Value where
  fits _ _ := true
  push_of_fits _ := ⟨_, rfl, rfl⟩
  push_of_not_fits h := nomatch h

instance : FittingBuffer ListBuffer Value where
  fits b v := b.elem.fits v.ty
  push_of_fits {m b v} h := by
    obtain ⟨elem, haccept, hfits⟩ := ElementType.accept_of_fits (m := m) h
    refine ⟨⟨elem, b.items.push v⟩, ?_, funext fun w => congrFun hfits w.ty⟩
    simp only [Buffer.push, haccept]
    rfl
  push_of_not_fits {m b v} h := by
    obtain ⟨e, haccept⟩ := ElementType.accept_of_not_fits (m := m) h
    refine ⟨e, ?_⟩
    simp only [Buffer.push, haccept]
    rfl

theorem SetBuffer.not_refused_iff {b : SetBuffer} {v : Value} :
    (!b.relation || v.ty.isTuple) = true ↔ (b.relation && !v.ty.isTuple) = false := by
  rw [← Bool.not_eq_true', Bool.not_and, Bool.not_not]

/-- A relation asks for tuples first. -/
instance : FittingBuffer SetBuffer Value where
  fits b v := (!b.relation || v.ty.isTuple) && b.elem.fits v.ty
  push_of_fits {m b v} h := by
    obtain ⟨htuple, helem⟩ := Bool.and_eq_true_iff.1 h
    obtain ⟨elem, haccept, hfits⟩ := ElementType.accept_of_fits (m := m) helem
    refine ⟨⟨elem, b.relation, b.elems.put v ()⟩, ?_, ?_⟩
    · simp only [Buffer.push, SetBuffer.not_refused_iff.1 htuple, haccept]
      rfl
    · funext w
      rw [hfits]
  push_of_not_fits {m b v} h := by
    by_cases hrefused : (b.relation && !v.ty.isTuple) = true
    · exact ⟨.notATuple v.ty, if_pos hrefused⟩
    · have htuple := SetBuffer.not_refused_iff.2 (Bool.eq_false_iff.2 hrefused)
      have helem : b.elem.fits v.ty = false := by simpa [htuple] using h
      obtain ⟨e, haccept⟩ := ElementType.accept_of_not_fits (m := m) helem
      refine ⟨e, ?_⟩
      simp only [Buffer.push, if_neg hrefused, haccept]
      rfl

/-- The value of an entry is looked at after its key, before either counts. -/
instance : FittingBuffer MapBuffer (Value × Value) where
  fits b e := b.key.fits e.1.ty && b.val.fits e.2.ty
  push_of_fits {m b e} h := by
    obtain ⟨hkey, hval⟩ := Bool.and_eq_true_iff.1 h
    obtain ⟨key, hacceptKey, hfitsKey⟩ := ElementType.accept_of_fits (m := m) hkey
    obtain ⟨val, hacceptVal, hfitsVal⟩ := ElementType.accept_of_fits (m := m) hval
    refine ⟨⟨key, val, b.entries.put e.1 e.2⟩, ?_, ?_⟩
    · simp only [Buffer.push, hacceptKey, hacceptVal]
      rfl
    · funext e
      rw [hfitsKey, hfitsVal]
  push_of_not_fits {m b e} h := by
    by_cases hkey : b.key.fits e.1.ty = true
    · have hval : b.val.fits e.2.ty = false := by simpa [hkey] using h
      obtain ⟨key, hacceptKey, -⟩ := ElementType.accept_of_fits (m := m) hkey
      obtain ⟨error, hacceptVal⟩ := ElementType.accept_of_not_fits (m := m) hval
      refine ⟨error, ?_⟩
      simp only [Buffer.push, hacceptKey, hacceptVal]
      rfl
    · obtain ⟨error, hacceptKey⟩ :=
        ElementType.accept_of_not_fits (m := m) (Bool.eq_false_iff.2 hkey)
      refine ⟨error, ?_⟩
      simp only [Buffer.push, hacceptKey]
      rfl

namespace Writer

variable {β ι : Type} [Buffer β ι] {m : Manager} {b b' : β}

/-- One call for each of the items. -/
def inserts (items : List ι) : List (Feed ι) := items.map .insert

/-- The writer after calls that bring items. -/
def fed (w : Writer β) (feeds : List (Feed ι)) : Writer β := w.after (feeds.map .feed)

/-- Whatever came before, an item that fits is taken, and any other is refused with an error of
types and changes nothing. The writer returns what it would of the items that fit alone. A batch
does what its items do one by one up to the first that does not fit, and then fails as this one
does. -/
structure RefusesUnfit (w : Writer β) (fits : ι → Bool) : Prop where
  takes : ∀ (feeds : List (Feed ι)) (item : ι), fits item = true →
    ∃ w', insert item (w.fed feeds) = .ok () w'
  refuses : ∀ (feeds : List (Feed ι)) (item : ι), fits item = false →
    ∃ e, insert item (w.fed feeds) = .error (.type e) (w.fed feeds)
  done_eq : ∀ (items : List ι) (cell : Cell),
    done cell (w.fed (inserts items)) = done cell (w.fed (inserts (items.filter fits)))
  insertAll_eq : ∀ (feeds : List (Feed ι)) (items : List ι),
    insertAll items (w.fed feeds) =
      match items.dropWhile fits with
      | [] => .ok () (w.fed (feeds ++ inserts items))
      | item :: _ => insert item (w.fed (feeds ++ inserts (items.takeWhile fits)))

theorem fed_cons (w : Writer β) (feed : Feed ι) (feeds : List (Feed ι)) :
    w.fed (feed :: feeds) = (stateAfter feed.run w).fed feeds := by
  show (stateAfter (feed.run >>= fun _ => pure none) w).after _ = _
  rw [stateAfter_bind_pure]
  rfl

theorem fed_append (w : Writer β) (feeds feeds' : List (Feed ι)) :
    w.fed (feeds ++ feeds') = (w.fed feeds).fed feeds' := by
  rw [fed, List.map_append, after, List.foldl_append]
  rfl

/-- What the calls bring that is taken decides about the writer. -/
theorem fed_eq_of_takenOf_eq {feeds feeds' : List (Feed ι)}
    (h : (ofBuffer m b).takenOf feeds = (ofBuffer m b).takenOf feeds') :
    (ofBuffer m b).fed feeds = (ofBuffer m b).fed feeds' := by
  obtain ⟨c, hc, htaken⟩ := after_feeds (m := m) feeds b
  obtain ⟨c', hc', htaken'⟩ := after_feeds (m := m) feeds' b
  rw [h, htaken'] at htaken
  obtain rfl := Except.ok.inj htaken
  exact hc.trans hc'.symm

variable [FittingBuffer β ι]

/-- The items that fit are the same after any calls. -/
theorem exists_fed (feeds : List (Feed ι)) (b : β) :
    ∃ b', (ofBuffer m b).fed feeds = ofBuffer m b' ∧
      FittingBuffer.fits b' = FittingBuffer.fits b := by
  obtain ⟨b', hfed, htaken⟩ := after_feeds (m := m) feeds b
  refine ⟨b', hfed, ?_⟩
  refine foldlM_eq_ok (P := fun c => FittingBuffer.fits c = FittingBuffer.fits b) rfl ?_ htaken
  intro c item _ c' hc hpush
  cases hfits : FittingBuffer.fits c item with
  | true =>
    obtain ⟨c'', hpush', hkept⟩ := FittingBuffer.push_of_fits (m := m) hfits
    obtain rfl := Except.ok.inj (hpush'.symm.trans hpush)
    exact hkept.trans hc
  | false =>
    obtain ⟨e, hpush'⟩ := FittingBuffer.push_of_not_fits (m := m) hfits
    cases hpush'.symm.trans hpush

/-! ### What is taken -/

theorem taken_eq_takeWhile (items : List ι) (b : β) :
    (ofBuffer m b).taken items = items.takeWhile (FittingBuffer.fits b) := by
  induction items generalizing b with
  | nil => rfl
  | cons item items ih =>
    rw [taken]
    cases hfits : FittingBuffer.fits b item with
    | true =>
      obtain ⟨b', hpush, hkept⟩ := FittingBuffer.push_of_fits (m := m) hfits
      rw [insert_of_push_ok hpush, List.takeWhile_cons_of_pos hfits, ← hkept, ← ih b']
    | false =>
      obtain ⟨e, hpush⟩ := FittingBuffer.push_of_not_fits (m := m) hfits
      rw [insert_of_push_error hpush, List.takeWhile_cons_of_neg (Bool.eq_false_iff.1 hfits)]

/-- Of items that come one by one, those that fit are taken. -/
theorem takenOf_inserts (items : List ι) (b : β) :
    (ofBuffer m b).takenOf (inserts items) = items.filter (FittingBuffer.fits b) := by
  induction items generalizing b with
  | nil => rfl
  | cons item items ih =>
    obtain ⟨b', hfed, hkept⟩ := exists_fed (m := m) [.insert item] b
    rw [fed_cons] at hfed
    have hstate : stateAfter (insert item) (ofBuffer m b) = ofBuffer m b' := hfed
    show (ofBuffer m b).taken [item] ++
      (stateAfter (insert item) (ofBuffer m b)).takenOf (inserts items) = _
    rw [hstate, ih b', hkept, taken_eq_takeWhile, List.filter_cons, List.takeWhile_cons]
    cases FittingBuffer.fits b item <;> rfl

/-- A batch is walked up to the first item that does not fit. -/
theorem insertEach_eq (items : List ι) (b : β) :
    items.forM insert (ofBuffer m b) =
      match items.dropWhile (FittingBuffer.fits b) with
      | [] => .ok () ((ofBuffer m b).fed (inserts items))
      | item :: _ => insert item
        ((ofBuffer m b).fed (inserts (items.takeWhile (FittingBuffer.fits b)))) := by
  induction items generalizing b with
  | nil => rfl
  | cons item items ih =>
    have hcons : ((item :: items).forM insert : Writing β Unit) =
        insert item >>= fun _ => items.forM insert := rfl
    cases hfits : FittingBuffer.fits b item with
    | true =>
      obtain ⟨b', hpush, hkept⟩ := FittingBuffer.push_of_fits (m := m) hfits
      have hinsert := insert_of_push_ok hpush
      have hfed (items : List ι) : (ofBuffer m b).fed (inserts (item :: items)) =
          (ofBuffer m b').fed (inserts items) := by
        show (ofBuffer m b).fed (.insert item :: inserts items) = _
        rw [fed_cons, Feed.run, stateAfter, hinsert]
      rw [hcons, bind_apply_of_ok hinsert, ih b', hkept, List.dropWhile_cons_of_pos hfits,
        List.takeWhile_cons_of_pos hfits, hfed, hfed]
    | false =>
      obtain ⟨e, hpush⟩ := FittingBuffer.push_of_not_fits (m := m) hfits
      have hinsert := insert_of_push_error hpush
      have hnot := Bool.eq_false_iff.1 hfits
      rw [List.dropWhile_cons_of_neg hnot, List.takeWhile_cons_of_neg hnot, hcons]
      show EStateM.bind (insert item) _ (ofBuffer m b) = insert item (ofBuffer m b)
      rw [EStateM.bind, hinsert]

theorem refusesUnfit_ofBuffer (m : Manager) (b : β) :
    (ofBuffer m b).RefusesUnfit (FittingBuffer.fits b) where
  takes feeds item h := by
    obtain ⟨b', hfed, hkept⟩ := exists_fed (m := m) feeds b
    obtain ⟨c, hpush, -⟩ := FittingBuffer.push_of_fits (m := m) (congrFun hkept item ▸ h)
    exact ⟨ofBuffer m c, hfed ▸ insert_of_push_ok hpush⟩
  refuses feeds item h := by
    obtain ⟨b', hfed, hkept⟩ := exists_fed (m := m) feeds b
    obtain ⟨e, hpush⟩ := FittingBuffer.push_of_not_fits (m := m) (congrFun hkept item ▸ h)
    exact ⟨e, hfed ▸ insert_of_push_error hpush⟩
  done_eq items cell := by
    have htaken : (ofBuffer m b).takenOf (inserts items) =
        (ofBuffer m b).takenOf (inserts (items.filter (FittingBuffer.fits b))) := by
      rw [takenOf_inserts, takenOf_inserts, List.filter_filter]
      simp
    rw [fed_eq_of_takenOf_eq htaken]
  insertAll_eq feeds items := by
    obtain ⟨b', hfed, hkept⟩ := exists_fed (m := m) feeds b
    rw [fed_append, fed_append, hfed, ← hkept]
    exact insertEach_eq items b'

/-- Writers of all sorts refuse what does not fit their declared types, and it leaves no trace. A
relation also refuses what is no tuple. -/
theorem refusesUnfit (m : Manager) :
    (∀ b : TupleBuffer, (ofBuffer m b).RefusesUnfit fun _ => true) ∧
    (∀ b : ListBuffer, (ofBuffer m b).RefusesUnfit fun v => b.elem.fits v.ty) ∧
    (∀ b : SetBuffer, (ofBuffer m b).RefusesUnfit fun v =>
      (!b.relation || v.ty.isTuple) && b.elem.fits v.ty) ∧
    ∀ b : MapBuffer, (ofBuffer m b).RefusesUnfit fun e =>
      b.key.fits e.1.ty && b.val.fits e.2.ty :=
  ⟨fun b => refusesUnfit_ofBuffer m b, fun b => refusesUnfit_ofBuffer m b,
    fun b => refusesUnfit_ofBuffer m b, fun b => refusesUnfit_ofBuffer m b⟩

/-- A key that fits does not go in, nor does its type count, if the value does not fit. -/
example (m : Manager) (n : Int64) (t : Bool) :
    (Writer.map m none (some m.int)).fed (inserts [(Build.int m n, Build.bool m t)]) =
      Writer.map m none (some m.int) :=
  rfl

end Writer

end ValueAlgebra
