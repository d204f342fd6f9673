import MiniOS.Slab.Fill

namespace MiniOS

open Lib Function Relation

variable {k : Kernel} {c : Nat} {live : List Obj} {size : Int} {pages rest : List Nat} {w : World}
  {allowed : Kernel → Int → Prop}

/-- The slab allocator used by several CPUs. `admitted` has, for each CPU, the
size it asked for if it is between the tests of `kmalloc` and `acquire`. -/
structure Smp where
  kernel : Kernel
  live : List Obj
  admitted : Nat → Option Int

/-- The steps of the CPUs. A call of `kmalloc` that is refused changes nothing.
`allowed` says in which states the section of `kmalloc` may be entered. -/
inductive SmpStep (allowed : Kernel → Int → Prop) : Smp → Smp → Prop
  | test {k : Kernel} {live : List Obj} {admitted : Nat → Option Int} {cpu : Nat} {size : Int} :
      admitted cpu = none → 0 < size → size ≤ 2048 → kmallocRefuses k (kmallocIdx size) = false →
      SmpStep allowed ⟨k, live, admitted⟩ ⟨k, live, update admitted cpu (some size)⟩
  | locked {k k' : Kernel} {live : List Obj} {admitted : Nat → Option Int} {cpu : Nat} {size : Int} {p : Nat} :
      admitted cpu = some size → allowed k (kmallocIdx size) → kmallocLocked k (kmallocIdx size) size = .ok (k', p) →
      SmpStep allowed ⟨k, live, admitted⟩
        ⟨k', if p = 0 then live else newObj k size p :: live, update admitted cpu none⟩
  | kmfree {k k' : Kernel} {live : List Obj} {admitted : Nat → Option Int} {o : Obj} : o ∈ live →
      kmfree k o.addr (classSize o.cls) = .ok k' → SmpStep allowed ⟨k, live, admitted⟩ ⟨k', live.erase o, admitted⟩
  | write {k : Kernel} {live : List Obj} {admitted : Nat → Option Int} {o : Obj} {mem : Nat → BitVec 8} : o ∈ live →
      (∀ a, a < o.addr ∨ o.addr + classSize o.cls ≤ a → mem a = k.mem a) →
      SmpStep allowed ⟨k, live, admitted⟩ ⟨k.withMem mem, live, admitted⟩
  | elsewhere {k k' : Kernel} {live : List Obj} {admitted : Nat → Option Int} : Elsewhere k k' →
      SmpStep allowed ⟨k, live, admitted⟩ ⟨k', live, admitted⟩

/-- The class is not full yet, and `kalloc` has a page that nobody holds if one is needed. -/
def HasRoom (k : Kernel) (slabIdx : Int) : Prop :=
  k.int slabIdx .numUsedObjects < capacity slabIdx.toNat ∧ Provided k slabIdx

/-- What holds while `kmalloc` only enters its section when there is room. -/
structure SmpInv (s : Smp) : Prop where
  present : Present ⟨s.kernel, s.live⟩
  sizes : ∀ cpu size, s.admitted cpu = some size → 0 < size ∧ size ≤ 2048

namespace SmpInv

variable {k k' : Kernel} {live : List Obj} {admitted : Nat → Option Int}

theorem sizes_update {cpu : Nat} {call : Option Int}
    (sizes : ∀ cpu size, admitted cpu = some size → 0 < size ∧ size ≤ 2048)
    (new : ∀ size, call = some size → 0 < size ∧ size ≤ 2048) :
    ∀ cpu' size, update admitted cpu call cpu' = some size → 0 < size ∧ size ≤ 2048 := by
  intro cpu' size waits
  by_cases same : cpu' = cpu
  · rw [same, update_self] at waits
    exact new size waits
  · rw [update_of_ne same] at waits
    exact sizes cpu' size waits

theorem locked {size : Int} {p : Nat} (before : Present ⟨k, live⟩) (positive : 0 < size) (small : size ≤ 2048)
    (room : HasRoom k (kmallocIdx size)) (call : kmallocLocked k (kmallocIdx size) size = .ok (k', p)) :
    Present ⟨k', if p = 0 then live else newObj k size p :: live⟩ := by
  obtain ⟨c, bound, idx, fits⟩ := kmallocIdx_spec positive small
  obtain ⟨z, lowest, few⟩ := exists_lowestFree (k.slots c)
  obtain ⟨notFull, provided⟩ := room
  rw [idx] at call notFull
  have card : (k.slots c).card < capacity c := by
    have used := (before.inv.classes c bound).used
    dsimp only at used
    rw [Int.toNat_natCast] at notFull
    omega
  have intact : Intact k c := by
    by_contra spoilt
    rw [before.inv.kmallocLocked_spoilt bound card spoilt] at call
    cases call
  have chosen : Chosen k size c z := ⟨bound, idx, ⟨positive, fits⟩, lowest, by omega⟩
  obtain ⟨k'', p', taken⟩ := before.taken chosen intact provided
  rw [taken.locked] at call
  cases call
  rw [if_neg taken.real, chosen.newObj_eq]
  exact before.kmalloc taken

theorem step {s s' : Smp} (smp : SmpInv s) (step : SmpStep HasRoom s s') : SmpInv s' := by
  obtain ⟨before, sizes⟩ := smp
  cases step with
  | test idle positive small passes =>
    refine ⟨before, sizes_update sizes fun size same => ?_⟩
    cases same
    exact ⟨positive, small⟩
  | locked waits room call =>
    obtain ⟨positive, small⟩ := sizes _ _ waits
    exact ⟨locked before positive small room call, sizes_update sizes (by simp)⟩
  | kmfree member call => exact ⟨before.step (.kmfree member call), sizes⟩
  | write member inside => exact ⟨before.step (.write member inside), sizes⟩
  | elsewhere elsewhere => exact ⟨before.step (.elsewhere elsewhere), sizes⟩

end SmpInv

theorem Bootable.smp (boot : Bootable k pages) : SmpInv ⟨slabinit k, [], fun _ => none⟩ := ⟨boot.present, by simp⟩

/-- A call that runs without interruption is two steps of its CPU. -/
theorem Step.smp {w' : World} {allowed' : Kernel → Int → Prop} (step : Step allowed w w')
    (fine : ∀ size, 0 < size → size ≤ 2048 → allowed w.kernel (kmallocIdx size) →
      kmallocRefuses w.kernel (kmallocIdx size) = false → allowed' w.kernel (kmallocIdx size)) :
    ReflTransGen (SmpStep allowed') ⟨w.kernel, w.live, fun _ => none⟩ ⟨w'.kernel, w'.live, fun _ => none⟩ := by
  cases step with
  | @kmalloc k k' live size p positive small allows call =>
    have sizes : ¬(size > 2048 ∨ size ≤ 0) := by omega
    rw [MiniOS.kmalloc, if_neg sizes] at call
    by_cases refuses : kmallocRefuses k (kmallocIdx size) = true
    · rw [if_pos refuses] at call
      cases call
      exact .refl
    · rw [if_neg refuses] at call
      rw [Bool.not_eq_true] at refuses
      have test : SmpStep allowed' ⟨k, live, fun _ => none⟩ ⟨k, live, update (fun _ => none) 0 (some size)⟩ :=
        .test rfl positive small refuses
      have locked : SmpStep allowed' ⟨k, live, update (fun _ => none) 0 (some size)⟩ ⟨k', _, _⟩ :=
        .locked (update_self ..) (fine size positive small allows refuses) call
      rw [update_idem, update_eq_self] at locked
      exact (ReflTransGen.single test).tail locked
  | kmfree member call => exact .single (.kmfree member call)
  | write member inside => exact .single (.write member inside)
  | elsewhere elsewhere => exact .single (.elsewhere elsewhere)

theorem Bootable.smp_run (boot : Bootable k pages) (run : ReflTransGen (Step Provided) ⟨slabinit k, []⟩ w)
    (fine : ∀ w : World, Present w → ∀ size, 0 < size → size ≤ 2048 → Provided w.kernel (kmallocIdx size) →
      kmallocRefuses w.kernel (kmallocIdx size) = false → allowed w.kernel (kmallocIdx size)) :
    ReflTransGen (SmpStep allowed) ⟨slabinit k, [], fun _ => none⟩ ⟨w.kernel, w.live, fun _ => none⟩ :=
  run_simulation (f := fun w : World => (⟨w.kernel, w.live, fun _ => none⟩ : Smp))
    (fun {w w'} (before : Present w) (step : Step Provided w w') => before.step step)
    (fun before step => step.smp (fine _ before)) boot.present run

theorem Present.hasRoom (before : Present w) (positive : 0 < size) (small : size ≤ 2048)
    (provided : Provided w.kernel (kmallocIdx size)) (passes : kmallocRefuses w.kernel (kmallocIdx size) = false) :
    HasRoom w.kernel (kmallocIdx size) := by
  obtain ⟨c, bound, idx, _⟩ := kmallocIdx_spec positive small
  rw [idx] at provided passes ⊢
  refine ⟨?_, provided⟩
  have room := before.inv.not_full bound passes
  rw [(before.inv.classes c bound).used, Int.toNat_natCast]
  omega

/-- If `kmalloc` enters its section only when the class has room and `kalloc`
a page, no schedule of the CPUs gives out too many objects or one object twice. -/
theorem smp_objects_distinct {k : Kernel} {pages : List Nat} {s : Smp} (boot : Bootable k pages)
    (run : ReflTransGen (SmpStep HasRoom) ⟨slabinit k, [], fun _ => none⟩ s) :
    (∀ c : Nat, c < 9 → s.kernel.int c .numUsedObjects ≤
      s.kernel.int c .numObjectsPerPage * (if c = 0 then 64 else 100)) ∧
    s.live.Pairwise (fun o o' => o.addr ≠ o'.addr) := by
  obtain ⟨⟨inv, present, _⟩, _⟩ : SmpInv s := run_induction SmpInv.step boot.smp run
  refine ⟨fun c bound => ?_, inv.distinct.imp_of_mem fun {o o'} left right distinct => ?_⟩
  · have cls := inv.classes c bound
    have few := cls.card_le
    rw [capacity] at few
    rw [cls.used, cls.width]
    have cast := Int.ofNat_le.mpr few
    push_cast at cast
    exact cast
  · have real : ∀ o ∈ s.live, pagePtr s.kernel o.cls (o.slot / perPage o.cls) ≠ 0 := fun o member =>
      present o.cls (inv.objects o member).cls _ (inv.object_pageInUse member)
    have apart := inv.disjoint left right distinct (real _ left) (real _ right)
    have := classSize_pos o.cls
    have := classSize_pos o'.cls
    omega

theorem smp_objects_distinct_when_full : ∃ k pages s, Bootable k pages ∧
    ReflTransGen (SmpStep HasRoom) ⟨slabinit k, [], fun _ => none⟩ s ∧
    s.kernel.int 0 .numUsedObjects = 32768 ∧ s.live.Pairwise (fun o o' => o.addr ≠ o'.addr) := by
  obtain ⟨k, pages, boot, enough⟩ := exists_bootable
  obtain ⟨⟨k₁, live⟩, _, _, run, _, filled, _, _⟩ := boot.fill (n := 32768) (c := 0)
    (show (0 : Int) < 8 by decide) (by decide) (by decide) (by decide) (by decide) (by omega)
  have smpRun := boot.smp_run run fun w before size => before.hasRoom
  have slots : k₁.slots 0 = Finset.range 32768 := filled.slots
  have used : k₁.int 0 .numUsedObjects = (k₁.slots 0).card := (filled.present.inv.classes 0 (by decide)).used
  refine ⟨k, pages, _, boot, smpRun, ?_, (smp_objects_distinct boot smpRun).2⟩
  rw [used, slots, Finset.card_range]
  rfl

/-- A full class still has the size of its objects and finds a page, so its section takes a slot
that the class does not have. -/
theorem Filled.marks_behind {pg : Nat} (filled : Filled ⟨k, live⟩ c (capacity c) (pg :: rest)) (bound : c < 9)
    (later : c ≠ 0) (behind : capacity c < 32768) : Marks k c (capacity c) := by
  have cls : ClassInv k c := filled.present.inv.classes c bound
  have slots : k.slots c = Finset.range (capacity c) := filled.slots
  have supplied : Supplied k c (capacity c) := fun _ => .inl filled.fresh
  have total := cls.total
  have used := cls.used
  have pages : capacity c = perPage c * 100 := by rw [capacity, if_neg later]
  have positive := perPage_pos bound
  rw [slots, Finset.card_range] at used
  exact {
    bound := bound
    width := cls.width
    size := filled.intact
    lowest := by
      rw [slots]
      exact lowestFree_range _
    inside := by omega
    used := cls.used
    free := by omega
    room := filled.present.inv.target_room bound supplied
    separate := filled.present.inv.target_bitmap_apart bound bound supplied }

/-- Two CPUs find one 1024-byte object left, and both go on to take one: the class has 401
objects, although it has room for 400. -/
theorem smp_class_overfull : ∃ k pages s, Bootable k pages ∧
    ReflTransGen (SmpStep Provided) ⟨slabinit k, [], fun _ => none⟩ s ∧
    s.kernel.int 7 .numUsedObjects = 401 ∧ s.kernel.int 7 .numObjectsPerPage * 100 = 400 := by
  obtain ⟨k, pages, boot, enough⟩ := exists_bootable
  obtain ⟨⟨k₁, live⟩, pg, rest, run, _, filled, _, length⟩ := boot.fill (n := 399) (c := 7)
    (show (0 : Int) < 1024 by decide) (by decide) (by decide) (by decide) (by decide) (by omega)
  have served : Served k₁ 1024 7 399 := filled.served (by decide) (by decide) (by decide) (by decide) (by decide)
  obtain ⟨k₂, p, rest₂, call, _, filled₂, length₂⟩ :=
    filled.kmalloc_step (show (0 : Int) < 1024 by decide) (by decide)
    (by decide) (by decide) (by decide)
  obtain ⟨pg₂, rest₂, rfl⟩ := List.exists_cons_of_length_pos (l := rest₂) (by omega)
  have marks : Marks k₂ 7 400 := filled₂.marks_behind (by decide) (by decide) (by decide)
  obtain ⟨k₃, q, again, alloc⟩ := marks.kmallocLocked_spec (show (1024 : Int) ≤ classSize 7 by decide)
  have idx : kmallocIdx 1024 = (7 : Nat) := by decide
  have first : kmallocLocked k₁ (kmallocIdx 1024) 1024 = .ok (k₂, p) := by
    rw [served.idx, ← served.passes]
    exact call
  have second : kmallocLocked k₂ (kmallocIdx 1024) 1024 = .ok (k₃, q) := by
    rw [idx]
    exact again
  have test₀ : SmpStep Provided ⟨k₁, live, fun _ => none⟩ ⟨k₁, live, update (fun _ => none) 0 (some 1024)⟩ :=
    .test rfl (by decide) (by decide) served.admitted
  have test₁ : SmpStep Provided ⟨k₁, live, update (fun _ => none) 0 (some 1024)⟩
      ⟨k₁, live, update (update (fun _ => none) 0 (some 1024)) 1 (some 1024)⟩ :=
    .test rfl (by decide) (by decide) served.admitted
  have used₂ : k₂.int (7 : Nat) .numUsedObjects = 400 := by
    rw [(filled₂.present.inv.classes 7 (by decide)).used, filled₂.slots, Finset.card_range]
    rfl
  have used : k₃.int (7 : Nat) .numUsedObjects = 401 := by
    rw [alloc.numUsed, used₂]
    rfl
  have width : k₃.int 7 .numObjectsPerPage = 4 :=
    (Kernel.int_eq_of_field (alloc.frame 7 _ (by decide) (by decide) (by decide) fun _ => by decide)).trans
    marks.width
  have taken := ((boot.smp_run run fun _ _ _ _ _ provided _ => provided).tail test₀).tail test₁
  have waits₀ : update (update (fun _ => none) 0 (some 1024)) 1 (some 1024) 0 = some (1024 : Int) := rfl
  have waits₁ : update (update (update (fun _ => none) 0 (some 1024)) 1 (some 1024)) 0 none 1 = some (1024 : Int) := rfl
  have taken₂ := taken.tail (.locked waits₀ (fun _ _ => filled.fresh) first)
  exact ⟨k, pages, _, boot, taken₂.tail (.locked waits₁ (fun _ _ => filled₂.fresh) second), used, by rw [width]; rfl⟩

end MiniOS
