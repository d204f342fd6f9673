import MiniOS.Slab.Runs

namespace MiniOS

open Lib Relation

section Spoilt

variable {k : Kernel} {live : List Obj} {size : Int} {c : Nat}

theorem getpageNum_spoilt (page : k.IsPage (k.ptr c .size)) :
    getpageNum k c = .error .endlessLoop := by
  have small : cdiv ((512 : Nat) : Int) (k.int c .size) = .ok ((0 : Nat) : Int) := cdiv_spoilt page (by decide)
  have large : cdiv ((pgsize : Nat) : Int) (k.int c .size) = .ok ((0 : Nat) : Int) := cdiv_spoilt page (by decide)
  have small' : cdiv 512 (k.int c .size) = .ok 0 := small
  have large' : cdiv pgsize (k.int c .size) = .ok 0 := large
  unfold getpageNum
  rw [small', large']
  split <;> rfl

theorem setBitmap_words (k : Kernel) (slabIdx : Int) : (setBitmap k slabIdx).1.words = k.words := by
  unfold setBitmap
  split <;> rfl

theorem setBitmap_kend (k : Kernel) (slabIdx : Int) : (setBitmap k slabIdx).1.kend = k.kend := by
  unfold setBitmap
  split <;> rfl

/-- Once the size of a class is spoilt, `kmalloc` never returns an object of it again. -/
theorem Inv.kmallocLocked_spoilt (inv : Inv k live) (bound : c < 9)
    (room : (k.slots c).card < capacity c) (spoilt : ¬Intact k c) :
    kmallocLocked k c size = .error .endlessLoop := by
  have cls := inv.classes c bound
  obtain ⟨z, lowest, few⟩ := exists_lowestFree (k.slots c)
  have inside : z < 32768 := by
    have := capacity_le bound
    omega
  have same : (setBitmap (opened k c z) c).1.ptr c .size = k.ptr c .size :=
    (ptr_congr (setBitmap_words _ _) _ _).trans (Kernel.ptr_eq_of_field (opened_own (by decide) (by decide)))
  have page : (setBitmap (opened k c z) c).1.IsPage ((setBitmap (opened k c z) c).1.ptr c .size) := by
    rw [same, Kernel.IsPage.congr ((setBitmap_kend _ _).trans (opened_kend k c z))]
    exact cls.size.resolve_left spoilt
  simp only [kmallocLocked, openPage_eq bound cls.width cls.used lowest inside, ok_bind, getpageNum_spoilt page,
    error_bind]

end Spoilt

/-- If `kmalloc` asks for a page of class `slabIdx`, `kalloc` hands out one that nobody holds. -/
def Provided (k : Kernel) (slabIdx : Int) : Prop := ∀ i, newPageIndex k slabIdx = .ok (some i) → Fresh k

/-- The bytes of an object are the same in both states. -/
def Unchanged (k k' : Kernel) (o : Obj) : Prop :=
  ∀ a, o.addr ≤ a → a < o.addr + classSize o.cls → k'.mem a = k.mem a

/-- What holds in a run in which `kalloc` never fails. A class that has lost its size
may have bits without a live object. -/
structure Present (w : World) : Prop where
  inv : Inv w.kernel w.live
  present : NoNull w.kernel
  first : Intact w.kernel 0
  count : ∀ c : Nat, c < 9 → w.live.countP (fun o => o.cls = c) ≤ (w.kernel.slots c).card ∧
    (Intact w.kernel c → w.live.countP (fun o => o.cls = c) = (w.kernel.slots c).card)

/-- The section of `kmalloc` takes slot `z` of class `c` at address `p`. -/
structure Taken (k : Kernel) (size : Int) (c z : Nat) (k' : Kernel) (p : Nat) : Prop where
  chosen : Chosen k size c z
  intact : Intact k c
  supplied : Supplied k c z
  takes : Takes k c z
  locked : kmallocLocked k c size = .ok (k', p)
  alloc : Allocated k k' c z size p
  present : NoNull k'
  real : p ≠ 0

/-- `kmalloc` gives it out. -/
structure Given (k : Kernel) (size : Int) (c z : Nat) (k' : Kernel) (p : Nat) :
    Prop extends Taken k size c z k' p where
  served : Served k size c z

theorem Given.call {k k' : Kernel} {size : Int} {c z p : Nat} (given : Given k size c z k' p) :
    kmalloc k size = .ok (k', p) :=
  given.served.passes.trans given.locked

namespace Present

variable {k k' : Kernel} {live : List Obj} {size : Int} {c z p : Nat} {o : Obj} {w w' : World}

section

variable (before : Present ⟨k, live⟩)
include before

/-- The page of a live object exists. -/
theorem real (member : o ∈ live) : pagePtr k o.cls (o.slot / perPage o.cls) ≠ 0 :=
  before.present o.cls (before.inv.objects o member).cls _ (before.inv.object_pageInUse member)

theorem taken (chosen : Chosen k size c z) (intact : Intact k c)
    (provided : Provided k (kmallocIdx size)) : ∃ k' p, Taken k size c z k' p := by
  have supplied : Supplied k c z := fun opens => .inl (provided _ (chosen.asks before.inv opens))
  have takes := before.inv.takes chosen.bound intact chosen.lowest chosen.inside supplied
  obtain ⟨k', p, call, alloc⟩ := takes.kmallocLocked_spec chosen.asked.2
  have present := alloc.noNull before.inv takes supplied chosen.asked.2
    (fun opens => (provided _ (chosen.asks before.inv opens)).isPage.ne_zero) before.present
  have inUse : PageInUse (perPage c) (k'.slots c) (z / perPage c) := by
    rw [alloc.slots]
    exact pageInUse_insert.2 (.inl rfl)
  have page := present c chosen.bound _ inUse
  have addr := alloc.addr
  rw [objAddr] at addr
  exact ⟨k', p, chosen, intact, supplied, takes, call, alloc, present, by omega⟩

theorem given (served : Served k size c z) (intact : Intact k c)
    (provided : Provided k (kmallocIdx size)) : ∃ k' p, Given k size c z k' p := by
  obtain ⟨k', p, taken⟩ := before.taken served.toChosen intact provided
  exact ⟨k', p, taken, served⟩

/-- `kmalloc` refuses, never returns because the class has lost its size, or gives out
an object. -/
theorem kmalloc_cases (positive : 0 < size) (small : size ≤ 2048)
    (provided : Provided k (kmallocIdx size)) :
    kmallocRefuses k (kmallocIdx size) = true ∧ kmalloc k size = .ok (k, 0) ∨
    (∃ c z, Served k size c z ∧ ¬Intact k c ∧ kmalloc k size = .error .endlessLoop) ∨
    ∃ c z k' p, Given k size c z k' p := by
  have sizes : ¬(size > 2048 ∨ size ≤ 0) := by omega
  by_cases refuses : kmallocRefuses k (kmallocIdx size) = true
  · refine .inl ⟨refuses, ?_⟩
    rw [kmalloc, if_neg sizes, if_pos refuses]
  · rw [Bool.not_eq_true] at refuses
    obtain ⟨c, z, served⟩ := before.inv.served positive small refuses
    by_cases intact : Intact k c
    · obtain ⟨k', p, given⟩ := before.given served intact provided
      exact .inr (.inr ⟨c, z, k', p, given⟩)
    · have room := before.inv.not_full served.bound (served.idx ▸ refuses)
      exact .inr (.inl ⟨c, z, served, intact,
        served.passes.trans (before.inv.kmallocLocked_spoilt served.bound room intact)⟩)

theorem kmalloc (taken : Taken k size c z k' p) : Present ⟨k', ⟨p, c, size, z⟩ :: live⟩ := by
  obtain ⟨chosen, _, supplied, takes, _, alloc, present, real⟩ := taken
  have after := alloc.keeps before.inv takes supplied chosen.inside chosen.asked
  rw [if_neg real] at after
  have first : Intact k' 0 := by
    rw [Intact, Kernel.int_eq_of_field (alloc.size_other takes fun next => by omega)]
    exact before.first
  refine ⟨after, present, first, fun d bound => ?_⟩
  have count := before.count d bound
  have sizes : Intact k' d → Intact k d := not_imp_not.1 (alloc.not_intact_kept takes supplied)
  rw [List.countP_cons]
  by_cases same : d = c
  · subst same
    simp only [alloc.slots, Finset.card_insert_of_notMem chosen.lowest.1, decide_true, if_true]
    exact ⟨Nat.succ_le_succ count.1, fun intact => congrArg Nat.succ (count.2 (sizes intact))⟩
  · have other : decide (c = d) = false := decide_eq_false (Ne.symm same)
    simp only [alloc.otherSlots before.inv takes supplied chosen.asked.2 bound same, other, Bool.false_eq_true,
      if_false, Nat.add_zero]
    exact ⟨count.1, fun intact => count.2 (sizes intact)⟩

/-- Live objects keep their bytes when another one is given out. -/
theorem kmalloc_unchanged (given : Given k size c z k' p) (member : o ∈ live) : Unchanged k k' o :=
  fun _ low high => given.alloc.object_mem before.inv given.takes given.supplied
  given.served.inside given.served.asked
    given.present member low high

/-- Memory of a page that nobody holds stays. -/
theorem unheld_mem {pg a : Nat} (given : Given k size c z k' p) (page : k.IsPage pg)
    (unheld : k'.holder pg = none) (low : pg ≤ a) (high : a < pg + 4096) : k'.mem a = k.mem a := by
  obtain ⟨⟨_, _, supplied, takes, _, alloc, present, _⟩, served⟩ := given
  have bitmap := alloc.holder_of_held supplied (before.inv.classes c served.bound).bitmapHeld
  have bitmapPage : k.IsPage (k.ptr c .bitmap) := (before.inv.classes c served.bound).bitmapPage
  have inUse : PageInUse (perPage c) (k'.slots c) (z / perPage c) := by
    rw [alloc.slots]
    exact pageInUse_insert.2 (.inl rfl)
  have held := (alloc.classInv_own before.inv takes supplied served.inside).heldPage inUse
    (present c served.bound _ inUse)
  have fits := slot_end_le served.bound z
  have addr := alloc.addr
  rw [objAddr] at addr
  have other : pg ≠ k.ptr c .bitmap := by
    rintro rfl
    rw [unheld] at bitmap
    cases bitmap
  have other' : pg ≠ pagePtr k' c (z / perPage c) := by
    rintro rfl
    have holder := held.holder
    rw [unheld] at holder
    cases holder
  have := page.aligned
  have := bitmapPage.aligned
  have := held.isPage.aligned
  exact alloc.mem_of_outside takes served.asked.2 (by omega) (by omega)

/-- In a class with its size an object is freed by clearing its own bit. -/
theorem slot_mem (member : o ∈ live) (intact : Intact k o.cls) : o.slot ∈ k.slots o.cls :=
  ((before.inv.objects o member).held (before.real member)).resolve_right fun spoilt => spoilt.1 intact

/-- Every set bit of a class with its size stands for a live object. -/
theorem exists_live (bound : c < 9) (intact : Intact k c) (used : z ∈ k.slots c) :
    ∃ o ∈ live, o.cls = c ∧ o.slot = z := by
  have count := (before.count c bound).2 intact
  have own : ∀ o ∈ live.filter (fun o => o.cls = c), o ∈ live ∧ o.cls = c := fun o member => by
    simpa using member
  have nodup : ((live.filter fun o => o.cls = c).map Obj.slot).Nodup := by
    refine List.pairwise_map.2 ((before.inv.distinct.filter _).imp_of_mem fun {o o'} left right distinct same => ?_)
    exact before.real (own o left).1 (distinct ((own o left).2.trans (own o' right).2.symm) same)
  have subset : ((live.filter fun o => o.cls = c).map Obj.slot).toFinset ⊆ k.slots c := by
    intro y member
    obtain ⟨o, inside, rfl⟩ := List.mem_map.1 (List.mem_toFinset.1 member)
    have slot := before.slot_mem (own o inside).1
    rw [(own o inside).2] at slot
    exact slot intact
  have whole := Finset.eq_of_subset_of_card_le subset (by
    rw [List.toFinset_card_of_nodup nodup, List.length_map, ← List.countP_eq_length_filter]
    exact count.symm.le)
  rw [← whole] at used
  obtain ⟨o, inside, slot⟩ := List.mem_map.1 (List.mem_toFinset.1 used)
  exact ⟨o, (own o inside).1, (own o inside).2, slot⟩

theorem clears_own (member : o ∈ live) (intact : Intact k o.cls) {q y : Nat} (clears : Clears k o q y) :
    q = o.slot / perPage o.cls ∧ y = o.slot := by
  cases clears with
  | own => exact ⟨rfl, rfl⟩
  | start _ spoilt => exact absurd intact spoilt
  | null null => exact absurd null (before.real member)

theorem kmfree {q y : Nat} (member : o ∈ live) (clears : Clears k o q y) (frees : Frees k o.cls q y o.addr)
    (freed : Freed k k' o.cls q y o.addr) : Present ⟨k', live.erase o⟩ := by
  refine ⟨freed.inv_erase clears frees before.inv member, freed.noNull clears frees before.inv member before.present,
    freed.intact_iff.2 before.first, fun d bound => ?_⟩
  have count := before.count d bound
  rw [(List.perm_cons_erase member).countP_eq, List.countP_cons] at count
  simp only [freed.intact_iff]
  by_cases same : d = o.cls
  · subst same
    simp only [decide_true, if_true] at count
    have fewer : (k.slots o.cls).card ≤ ((k.slots o.cls).erase y).card + 1 := by
      have := Finset.pred_card_le_card_erase (s := k.slots o.cls) (a := y)
      omega
    simp only [freed.slots]
    refine ⟨by omega, fun intact => ?_⟩
    have equal := count.2 intact
    rw [(before.clears_own member intact clears).2, Finset.card_erase_of_mem (before.slot_mem member intact)]
    omega
  · have other : decide (o.cls = d) = false := decide_eq_false (Ne.symm same)
    simp only [other, Bool.false_eq_true, if_false, Nat.add_zero] at count
    simp only [freed.otherSlots clears frees before.inv member bound same]
    exact count

theorem congr (words : k'.words = k.words) (kend : k'.kend = k.kend)
    (holder : ∀ pg h, h ≠ .other → (k'.holder pg = some h ↔ k.holder pg = some h))
    (slots : ∀ d : Nat, d < 9 → k'.slots d = k.slots d) : Present ⟨k', live⟩ := by
  refine ⟨before.inv.congr words kend holder slots, fun d bound p inUse => ?_, (intact_congr words).2 before.first,
    fun d bound => ?_⟩
  · simp only [slots d bound] at inUse
    exact (pagePtr_congr words).trans_ne (before.present d bound p inUse)
  · simp only [slots d bound, intact_congr words]
    exact before.count d bound

end

theorem step (before : Present w) (step : Step Provided w w') : Present w' := by
  cases step with
  | kmalloc positive small provided call =>
    rcases before.kmalloc_cases positive small provided with ⟨_, refused⟩ | ⟨_, _, _, _,
      endless⟩ | ⟨c, z, k', p, given⟩
    · rw [refused] at call
      cases call
      exact before
    · rw [endless] at call
      cases call
    · rw [given.call] at call
      cases call
      rw [if_neg given.real, given.served.newObj_eq]
      exact before.kmalloc given.toTaken
  | kmfree member call =>
    obtain ⟨q, y, clears, frees⟩ := before.inv.frees member (.inr before.present)
    obtain ⟨k', result, freed⟩ := frees.kmfree_spec
    rw [result] at call
    cases call
    exact before.kmfree member clears frees freed
  | write member inside =>
    exact before.congr rfl rfl (fun _ _ _ => Iff.rfl) fun d bound => before.inv.write_slots member inside bound
  | elsewhere elsewhere =>
    exact before.congr elsewhere.words elsewhere.kend elsewhere.holder fun d bound => elsewhere.slots before.inv bound

end Present

theorem Bootable.present {k : Kernel} {pages : List Nat} (boot : Bootable k pages) : Present ⟨slabinit k, []⟩ := by
  obtain ⟨inv, intact, present⟩ := boot.slabinit_inv
  obtain ⟨rest, _, booting⟩ := boot.slabinit_ready
  refine ⟨inv, present, intact 0 (by decide), fun c bound => ?_⟩
  simp only [(booting.ready c bound).empty, List.countP_nil, Finset.card_empty, le_refl, implies_true, and_self]

theorem Bootable.present_run {k : Kernel} {pages : List Nat} {w : World} (boot : Bootable k pages)
    (run : ReflTransGen (Step Provided) ⟨slabinit k, []⟩ w) : Present w :=
  run_induction Present.step boot.present run

end MiniOS
