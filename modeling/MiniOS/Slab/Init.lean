import MiniOS.FreeList
import MiniOS.Slab.Invariant

namespace MiniOS

open Lib Function

variable {k : Kernel} {c bitmap first n : Nat} {i d : Int} {pages rest : List Nat} {f : Field}

/-- A class as `slabinit` leaves it. -/
structure Ready (k : Kernel) (c : Nat) : Prop where
  intact : Intact k c
  width : k.int c .numObjectsPerPage = perPage c
  used : k.int c .numUsedObjects = 0
  free : k.int c .numFreeObjects = capacity c
  numPages : k.int c .numPages = 1
  bitmapPage : k.IsPage (k.ptr c .bitmap)
  bitmapHeld : k.holder (k.ptr c .bitmap) = some (.bitmapOf c)
  empty : k.slots c = ∅
  first : HeldPage k c 0
  owned : ∀ pg, k.holder pg = some (.objectsOf c) → pg = pagePtr k c 0

theorem Ready.inUse {p : Nat} (ready : Ready k c) (inUse : PageInUse (perPage c) (k.slots c) p) :
    p = 0 := by
  rw [ready.empty] at inUse
  exact inUse.resolve_right (by simp [occupiedPages])

theorem Ready.classInv (ready : Ready k c) : ClassInv k c where
  width := ready.width
  size := .inl ready.intact
  bitmapPage := ready.bitmapPage
  bitmapHeld := ready.bitmapHeld
  bounded := by simp [ready.empty]
  used := by simp [ready.empty, ready.used]
  total := by rw [ready.used, ready.free, Int.zero_add]
  numPages := by
    rw [ready.empty, ready.numPages]
    rfl
  pages := fun p inUse => .inl (ready.inUse inUse ▸ ready.first)
  entries := fun p q inUse below => absurd below (by rw [ready.inUse inUse]; omega)
  order := fun p q inUse _ below => absurd below (by rw [ready.inUse inUse]; omega)
  owned := fun pg held => ⟨0, .inl rfl, (ready.owned pg held).symm⟩

/-- What `slabinit` does for class `c` when `kalloc` hands out `bitmap` and then `first`. -/
structure Initialised (k k' : Kernel) (c bitmap first : Nat) : Prop where
  intact : Intact k' c
  width : k'.int c .numObjectsPerPage = perPage c
  used : k'.int c .numUsedObjects = 0
  free : k'.int c .numFreeObjects = capacity c
  numPages : k'.int c .numPages = 1
  bitmapPtr : k'.ptr c .bitmap = bitmap
  firstPtr : pagePtr k' c 0 = first
  frame : ∀ (d : Int) (f : Field), d ≠ c → 0 ≤ f.offset → f.offset < 106 → k'.field d f = k.field d f
  zero : ∀ a, bitmap ≤ a → a < bitmap + 4096 → k'.mem a = 0
  mem : ∀ a, a < bitmap ∨ bitmap + 4096 ≤ a → k'.mem a = k.mem a
  holder : k'.holder = update (update k.holder bitmap (some (.bitmapOf c))) first
    (some (.objectsOf c))
  freelist : k'.freelist = (load32 k.mem first).toNat
  kend : k'.kend = k.kend

theorem slabinitCounters_field {size pages : Int}
    (apart : ∀ g : Field, 0 ≤ g.offset → g.offset < 5 → g.offset ≠ 1 → f.word d ≠ g.word i) :
    (slabinitCounters k i size pages).field d f = k.field d f := by
  simp only [slabinitCounters, Kernel.setInt]
  rw [Kernel.field_setField_ne (apart _ (by decide) (by decide) (by decide)),
    Kernel.field_setField_ne (apart _ (by decide) (by decide) (by decide)),
    Kernel.field_setField_ne (apart _ (by decide) (by decide) (by decide)),
    Kernel.field_setField_ne (apart _ (by decide) (by decide) (by decide))]

theorem slabinitCounters_own (bound : c < 9) :
    let k' := slabinitCounters k c (classSize c) (if c = 0 then 64 else 100)
    k'.int c .size = classSize c ∧ k'.int c .numObjectsPerPage = perPage c ∧ k'.int c .numUsedObjects = 0 ∧
      k'.int c .numFreeObjects = capacity c := by
  have small := classSize_le bound
  have room := capacity_le bound
  have quotient : (pgsize : Int).tdiv (classSize c) = perPage c := by
    interval_cases c <;> decide
  have total : (perPage c : Int) * (if c = 0 then 64 else 100) = capacity c := by
    rw [capacity]
    split <;> rfl
  have few : perPage c ≤ 512 := Nat.div_le_self _ _
  have size : (k.setInt c .size (classSize c)).int c .size = classSize c :=
    Kernel.int_setInt_same (by omega) (by omega)
  simp only [slabinitCounters, size, quotient]
  have width : (((k.setInt c .size (classSize c)).setInt c .numObjectsPerPage (perPage c)).setInt c
      .numUsedObjects 0).int c .numObjectsPerPage = perPage c := by
    rw [Kernel.int_setInt_ne (own_word_ne (by decide))]
    exact Kernel.int_setInt_same (by omega) (by omega)
  rw [width, total]
  refine ⟨?_, ?_, ?_, ?_⟩
  · rw [Kernel.int_setInt_ne (own_word_ne (by decide)), Kernel.int_setInt_ne (own_word_ne (by decide)),
      Kernel.int_setInt_ne (own_word_ne (by decide)), size]
  · rw [Kernel.int_setInt_ne (own_word_ne (by decide)), width]
  · rw [Kernel.int_setInt_ne (own_word_ne (by decide))]
    exact Kernel.int_setInt_same (by omega) (by omega)
  · exact Kernel.int_setInt_same (by omega) (by omega)

/-- The state `slabinitPages` leaves when `kalloc` hands out `bitmap` and then `first`. -/
theorem slabinitPages_eq (spare : Spare k (bitmap :: first :: rest)) :
    slabinitPages k i = ((({ k with
      mem := memset k.mem bitmap 0 pgsize
      freelist := (load32 (memset k.mem bitmap 0 pgsize) first).toNat
      holder := update (update k.holder bitmap (some (.bitmapOf i))) first
        (some (.objectsOf i)) : Kernel }.setField i .bitmap (k.field i (.page 0))).setPtr i .bitmap bitmap).setPtr i
          (.page 1) first).setInt i .numPages 1 := by
  have start : k.freelist = bitmap := spare.linked.1
  have next : (load32 k.mem bitmap).toNat = first := spare.linked.2.1
  have page := spare.isPage bitmap (by simp)
  have page' := spare.isPage first (by simp)
  have high := page.high
  have pointer : bitmap % 2 ^ 32 = bitmap := Nat.mod_eq_of_lt (by omega)
  simp only [slabinitPages, kalloc, Kernel.freelist_setField, start, page.ne_zero, if_false, Kernel.ptr_setPtr_same,
    pointer]
  simp only [Kernel.setPtr, Kernel.mem_setField, Kernel.freelist_setField, Kernel.freelist_withMem, next,
    page'.ne_zero, if_false]
  rfl

theorem slabinitPages_field (h₁ : f.word d ≠ Field.numPages.word i)
    (h₂ : f.word d ≠ Field.bitmap.word i) (h₃ : f.word d ≠ (Field.page 1).word i) :
    (slabinitPages k i).field d f = k.field d f := by
  simp only [slabinitPages, Kernel.setInt, Kernel.setPtr]
  rw [Kernel.field_setField_ne h₁, Kernel.field_setField_ne h₃, kalloc_field, Kernel.field_withMem,
    Kernel.field_setField_ne h₂, kalloc_field, Kernel.field_setField_ne h₂]

theorem slabinitClass_spec (bound : c < 9)
    (spare : Spare k (bitmap :: first :: rest)) :
    Initialised k (slabinitClass k c (classSize c) (if c = 0 then 64 else 100)) c bitmap first := by
  have page := spare.isPage bitmap (by simp)
  have page' := spare.isPage first (by simp)
  have high := page.high
  have high' := page'.high
  have different : bitmap ≠ first := fun same => by simpa [same] using spare.nodup
  obtain ⟨size, width, used, free⟩ := slabinitCounters_own (k := k) bound
  have kend : (slabinitCounters k c (classSize c) (if c = 0 then 64 else 100)).kend = k.kend := rfl
  have counted : Spare (slabinitCounters k c (classSize c) (if c = 0 then 64 else 100)) (bitmap :: first :: rest) :=
    ⟨spare.linked, fun pg member => (Kernel.IsPage.congr kend).2 (spare.isPage pg member), spare.unheld, spare.nodup⟩
  have own : ∀ (k : Kernel) (f : Field), f.offset ≠ 1 → f.offset ≠ 5 → f.offset ≠ 7 →
      (slabinitPages k c).int c f = k.int c f := fun k f h₁ h₂ h₃ =>
    Kernel.int_eq_of_field (slabinitPages_field (own_word_ne h₁) (own_word_ne h₂) (own_word_ne h₃))
  rw [slabinitClass]
  have state := slabinitPages_eq (i := c) counted
  refine {
    intact := (own _ _ (by decide) (by decide) (by decide)).trans size
    width := (own _ _ (by decide) (by decide) (by decide)).trans width
    used := (own _ _ (by decide) (by decide) (by decide)).trans used
    free := (own _ _ (by decide) (by decide) (by decide)).trans free
    numPages := ?_
    bitmapPtr := ?_
    firstPtr := ?_
    frame := ?_
    zero := ?_
    mem := ?_
    holder := by rw [state]; rfl
    freelist := ?_
    kend := by rw [state]; rfl }
  · rw [state]
    exact Kernel.int_setInt_same (by decide) (by decide)
  · rw [state, Kernel.setInt, Kernel.setPtr, Kernel.setPtr, Kernel.ptr,
      Kernel.field_setField_ne (own_word_ne (by decide)), Kernel.field_setField_ne (own_word_ne (by decide)),
      Kernel.field_setField_same, BitVec.toNat_ofNat]
    exact Nat.mod_eq_of_lt (by omega)
  · rw [pagePtr, state, Kernel.setInt, Kernel.setPtr, Kernel.setPtr, Kernel.ptr]
    change ((Kernel.setField _ _ _ _).field c (.page 1)).toNat = _
    rw [Kernel.field_setField_ne (own_word_ne (by decide)), Kernel.field_setField_same, BitVec.toNat_ofNat]
    exact Nat.mod_eq_of_lt (by omega)
  · intro d f other low upper
    have apart : ∀ g : Field, 0 ≤ g.offset → g.offset < 106 → f.word d ≠ g.word c := fun g low' upper' =>
      Field.word_ne (.inl other) ⟨low', upper'⟩ ⟨low, upper⟩
    rw [slabinitPages_field (apart _ (by decide) (by decide)) (apart _ (by decide) (by decide))
      (apart _ (by decide) (by decide)), slabinitCounters_field fun g low' upper' _ => apart g low' (by omega)]
  · intro a low upper
    rw [state]
    exact memset_of_mem ⟨low, upper⟩
  · intro a outside
    rw [state]
    exact memset_of_not_mem outside
  · rw [state]
    refine congrArg BitVec.toNat (load32_congr fun a low upper => ?_)
    have := page.aligned
    have := page'.aligned
    exact memset_of_not_mem (by simp only [pgsize]; omega)

namespace Initialised

variable {k k' : Kernel} {c d bitmap first : Nat} {rest : List Nat} (init : Initialised k k' c bitmap first)
  (spare : Spare k (bitmap :: first :: rest)) {pg : Nat}

include init

theorem isPage : k'.IsPage pg ↔ k.IsPage pg := Kernel.IsPage.congr init.kend

theorem holder_other (other : pg ≠ bitmap) (other' : pg ≠ first) : k'.holder pg = k.holder pg := by
  rw [init.holder, update_of_ne other', update_of_ne other]

include spare

theorem mem_page {a : Nat} (page : k.IsPage pg) (other : pg ≠ bitmap) (low : pg ≤ a) (high : a < pg + 4096) :
    k'.mem a = k.mem a := by
  have := page.aligned
  have := (spare.isPage bitmap (by simp)).aligned
  exact init.mem a (by omega)

theorem spare_rest : Spare k' rest := by
  have nodup := spare.nodup
  simp only [List.nodup_cons, List.mem_cons, not_or] at nodup
  obtain ⟨⟨apart, notBitmap⟩, notFirst, nodup⟩ := nodup
  have other : ∀ pg ∈ rest, pg ≠ bitmap ∧ pg ≠ first := fun pg member =>
    ⟨fun same => notBitmap (same ▸ member), fun same => notFirst (same ▸ member)⟩
  refine ⟨?_, fun pg member => init.isPage.2 (spare.isPage pg (by simp [member])), fun pg member => ?_, nodup⟩
  · rw [init.freelist]
    refine spare.linked.2.2.congr fun pg member a low high => ?_
    exact init.mem_page spare (spare.isPage pg (by simp [member])) (other pg member).1 low high
  · rw [init.holder_other (other pg member).1 (other pg member).2]
    exact spare.unheld pg (by simp [member])

theorem ready_new (unused : ∀ pg, k.holder pg ≠ some (.objectsOf c)) : Ready k' c := by
  have different : bitmap ≠ first := fun same => by simpa [same] using spare.nodup
  exact {
    intact := init.intact
    width := init.width
    used := init.used
    free := init.free
    numPages := init.numPages
    bitmapPage := by
      rw [init.bitmapPtr, init.isPage]
      exact spare.isPage bitmap (by simp)
    bitmapHeld := by rw [init.bitmapPtr, init.holder, update_of_ne different, update_self]
    empty := by
      ext z
      simp only [Kernel.mem_slots, Kernel.slotBit, init.bitmapPtr, Finset.notMem_empty, iff_false, not_and]
      intro inside
      rw [init.zero _ (by omega) (by omega)]
      simp
    first := by
      refine ⟨?_, ?_⟩
      · rw [init.firstPtr, init.isPage]
        exact spare.isPage first (by simp)
      · rw [init.firstPtr, init.holder, update_self]
    owned := by
      intro pg held
      rw [init.firstPtr]
      by_contra other
      rw [init.holder, update_of_ne other] at held
      by_cases same : pg = bitmap
      · rw [same, update_self] at held
        cases held
      · rw [update_of_ne same] at held
        exact unused pg held }

theorem ready_old (other : d ≠ c) (ready : Ready k d) : Ready k' d := by
  have field : ∀ f : Field, 0 ≤ f.offset → f.offset < 106 → k'.field d f = k.field d f := fun f =>
    init.frame d f (by omega)
  have int : ∀ f : Field, 0 ≤ f.offset → f.offset < 106 → k'.int d f = k.int d f := fun f low high =>
    Kernel.int_eq_of_field (field f low high)
  have pointer : k'.ptr d .bitmap = k.ptr d .bitmap := Kernel.ptr_eq_of_field (field _ (by decide) (by decide))
  have page : pagePtr k' d 0 = pagePtr k d 0 := Kernel.ptr_eq_of_field (field _ (by decide) (by decide))
  have held : ∀ {pg : Nat} {h : Holder}, k.holder pg = some h → pg ≠ bitmap ∧ pg ≠ first := by
    intro pg h holder
    refine ⟨?_, ?_⟩
    · rintro rfl
      rw [spare.unheld pg (by simp)] at holder
      cases holder
    · rintro rfl
      rw [spare.unheld pg (by simp)] at holder
      cases holder
  have kept : ∀ {pg : Nat} {h : Holder}, k.holder pg = some h → k'.holder pg = some h := fun holder => by
    rw [init.holder_other (held holder).1 (held holder).2, holder]
  exact {
    intact := (int _ (by decide) (by decide)).trans ready.intact
    width := (int _ (by decide) (by decide)).trans ready.width
    used := (int _ (by decide) (by decide)).trans ready.used
    free := (int _ (by decide) (by decide)).trans ready.free
    numPages := (int _ (by decide) (by decide)).trans ready.numPages
    bitmapPage := by
      rw [pointer, init.isPage]
      exact ready.bitmapPage
    bitmapHeld := by
      rw [pointer]
      exact kept ready.bitmapHeld
    empty := by
      rw [← ready.empty]
      refine Kernel.slots_congr pointer fun a low high => ?_
      exact init.mem_page spare ready.bitmapPage (held ready.bitmapHeld).1 low high
    first := by
      refine ⟨?_, ?_⟩
      · rw [page, init.isPage]
        exact ready.first.isPage
      · rw [page]
        exact kept ready.first.holder
    owned := by
      intro pg holder
      rw [page]
      refine ready.owned pg ?_
      rw [init.holder] at holder
      by_cases same : pg = first
      · rw [same, update_self] at holder
        simp only [Option.some.injEq, Holder.objectsOf.injEq, Nat.cast_inj] at holder
        exact absurd holder.symm other
      · rw [update_of_ne same] at holder
        by_cases same' : pg = bitmap
        · rw [same', update_self] at holder
          cases holder
        · rwa [update_of_ne same'] at holder }

end Initialised

/-- `slabinit` with the first `n` classes done. -/
structure Booting (k : Kernel) (n : Nat) (pages : List Nat) : Prop where
  ready : ∀ c < n, Ready k c
  spare : Spare k pages
  unused : ∀ c : Nat, n ≤ c → ∀ pg, k.holder pg ≠ some (.objectsOf c)

/-- What `slabinit` relies on: `kalloc` has at least two pages for each class. -/
structure Bootable (k : Kernel) (pages : List Nat) : Prop where
  spare : Spare k pages
  enough : 18 ≤ pages.length
  unused : ∀ (i : Int) (pg : Nat), k.holder pg ≠ some (.objectsOf i)

theorem Booting.next (bound : n < 9)
    (booting : Booting k n (bitmap :: first :: rest)) :
    Booting (slabinitClass k n (classSize n) (if n = 0 then 64 else 100)) (n + 1) rest := by
  have init := slabinitClass_spec bound booting.spare
  refine ⟨fun c below => ?_, init.spare_rest booting.spare, fun c above pg => ?_⟩
  · by_cases same : c = n
    · subst same
      exact init.ready_new booting.spare (booting.unused c le_rfl)
    · exact init.ready_old booting.spare same (booting.ready c (by omega))
  · intro held
    rw [init.holder] at held
    by_cases same : pg = first
    · rw [same, update_self] at held
      simp only [Option.some.injEq, Holder.objectsOf.injEq, Nat.cast_inj] at held
      omega
    · rw [update_of_ne same] at held
      by_cases same' : pg = bitmap
      · rw [same', update_self] at held
        cases held
      · rw [update_of_ne same'] at held
        exact booting.unused c (by omega) pg held

theorem exists_two (enough : 2 ≤ pages.length) :
    ∃ bitmap first rest, pages = bitmap :: first :: rest := by
  match pages, enough with
  | bitmap :: first :: rest, _ => exact ⟨bitmap, first, rest, rfl⟩

/-- The loop of `slabinit` gets a class ready in every round. -/
theorem Bootable.loop (boot : Bootable k pages) (bound : n < 9) :
    ∃ rest, rest.length + 2 * (n + 1) = pages.length ∧
      Booting ((List.range' 1 n).foldl
        (fun k (i : Nat) => slabinitClass k i (k.int (i - 1) .size * 2) maxPagesPerSlab)
        (slabinitClass k 0 8 64)) (n + 1) rest := by
  have enough := boot.enough
  induction n with
  | zero =>
    obtain ⟨bitmap, first, rest, rfl⟩ := exists_two (show 2 ≤ pages.length by omega)
    refine ⟨rest, rfl, ?_⟩
    have start : Booting k 0 (bitmap :: first :: rest) := ⟨by simp, boot.spare, fun c _ => boot.unused c⟩
    exact start.next (by decide)
  | succ n ih =>
    obtain ⟨rest, length, booting⟩ := ih (by omega)
    obtain ⟨bitmap, first, rest, rfl⟩ := exists_two (show 2 ≤ rest.length by omega)
    simp only [List.length_cons] at length
    refine ⟨rest, by omega, ?_⟩
    have size := (booting.ready n (by omega)).intact
    have next := booting.next (by omega)
    rw [List.range'_1_concat, List.foldl_append, List.foldl_cons, List.foldl_nil, Nat.add_comm 1 n]
    have before : (((n + 1 : Nat) : Int) - 1) = n := by omega
    have double : (classSize n : Int) * 2 = classSize (n + 1) := by
      simp only [classSize]
      push_cast
      ring
    rw [before, size, double]
    exact next

/-- `slabinit` gets all nine classes ready. -/
theorem Bootable.slabinit_ready (boot : Bootable k pages) :
    ∃ rest, rest.length + 18 = pages.length ∧ Booting (slabinit k) 9 rest :=
  boot.loop (n := 8) (by decide)

theorem Bootable.slabinit_inv (boot : Bootable k pages) :
    Inv (slabinit k) [] ∧ AllIntact (slabinit k) ∧ NoNull (slabinit k) := by
  obtain ⟨rest, _, booting⟩ := boot.slabinit_ready
  refine ⟨⟨fun c bound => (booting.ready c bound).classInv, by simp, List.Pairwise.nil⟩, fun c bound =>
    (booting.ready c bound).intact, fun c bound p inUse => ?_⟩
  rw [(booting.ready c bound).inUse inUse]
  exact (booting.ready c bound).first.ne_zero

/-- The pages between 4 MB and `PHYSTOP`, which `kinit2` puts on the free list
right before `slabinit`, are more than enough. -/
theorem kinit2_bootable (behind : k.kend ≤ 0x80400000)
    (unused : ∀ (i : Int) (pg : Nat), k.holder pg ≠ some (.objectsOf i)) :
    ∃ k' pages, freerange 0x80400000 0x8E000000 k = .ok k' ∧ Bootable k' pages ∧ pages.length = 56320 := by
  have rounded : pgroundup 0x80400000 = 0x80400000 := by decide
  have upper : 0x8E000000 ≤ kernbase + phystop := by decide
  obtain ⟨k', pages, result, spare, length, holder⟩ :=
    freerange_spare (by rw [rounded]; exact behind) (by decide) upper
  have count : pages.length = 56320 := by
    rw [length]
    decide
  refine ⟨k', pages, result, ⟨spare, by omega, fun i pg held => ?_⟩, count⟩
  rcases holder pg with none | same
  · rw [none] at held
    cases held
  · exact unused i pg (same ▸ held)

theorem exists_bootable : ∃ k pages, Bootable k pages ∧ pages.length = 56320 := by
  obtain ⟨k, pages, _, boot, length⟩ := kinit2_bootable (k := ⟨fun _ => 0, fun _ => 0, 0, fun _ => none, 0x80115000⟩)
    (by decide) (by simp)
  exact ⟨k, pages, boot, length⟩

end MiniOS
