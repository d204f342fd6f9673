import MiniOS.Slab.Fill

namespace MiniOS

open Lib Relation

/-- The live objects of a class. -/
def liveCount (w : World) (c : Nat) : Nat := w.live.countP fun o => o.cls = c

/-- `kmalloc` gives out an object if its class and the class of 8 bytes have a clear bit
and the class has its size. -/
theorem Present.kmalloc_some_iff {k : Kernel} {live : List Obj} {size : Int} {c : Nat} (before : Present ⟨k, live⟩)
    (positive : 0 < size) (small : size ≤ 2048) (idx : kmallocIdx size = c) (bound : c < 9)
    (provided : Provided k (kmallocIdx size)) :
    (∃ k' p, MiniOS.kmalloc k size = .ok (k', p) ∧ p ≠ 0) ↔
      (k.slots c).card < capacity c ∧ (k.slots (0 : Nat)).card < capacity 0 ∧ Intact k c := by
  have refuses : kmallocRefuses k c = true ↔ (k.slots c).card = capacity c ∨ (k.slots (0 : Nat)).card = capacity 0 :=
    before.inv.refuses_iff bound
  have most : (k.slots c).card ≤ capacity c := (before.inv.classes c bound).card_le
  have most' : (k.slots (0 : Nat)).card ≤ capacity 0 := (before.inv.classes 0 (by decide)).card_le
  rcases before.kmalloc_cases positive small provided with ⟨passes, refused⟩ | ⟨d, z, served, spoilt,
    endless⟩ | ⟨d, z, k', p, given⟩
  · rw [idx] at passes
    have full := refuses.1 passes
    constructor
    · rintro ⟨k', p, call, real⟩
      rw [refused] at call
      cases call
      exact absurd rfl real
    · rintro ⟨room, room', _⟩
      omega
  · have same : d = c := by
      have := served.idx
      omega
    subst same
    constructor
    · rintro ⟨k', p, call, _⟩
      rw [endless] at call
      cases call
    · rintro ⟨_, _, intact⟩
      exact absurd intact spoilt
  · have same : d = c := by
      have := given.served.idx
      omega
    subst same
    have passes := given.served.admitted
    rw [idx] at passes
    have room : ¬((k.slots d).card = capacity d ∨ (k.slots (0 : Nat)).card = capacity 0) := by
      rw [← refuses, passes]
      decide
    exact ⟨fun _ => ⟨by omega, by omega, given.intact⟩, fun _ => ⟨k', p, given.call, given.real⟩⟩

/-- While `kalloc` has pages, `kmalloc` gives out an object just when the class that serves
the size has room, unless the class is not full but has lost its size or the class of 8
bytes is full. -/
theorem kmalloc_when_room {k : Kernel} {pages : List Nat} {w : World} {size : Int} (boot : Bootable k pages)
    (run : ReflTransGen (Step Provided) ⟨slabinit k, []⟩ w) (positive : 0 < size) (small : size ≤ 2048)
    (provided : Provided w.kernel (kmallocIdx size)) :
    ((∃ k' p, kmalloc w.kernel size = .ok (k', p) ∧ p ≠ 0) ↔
        liveCount w (kmallocIdx size).toNat < capacity (kmallocIdx size).toNat) ↔
      (liveCount w (kmallocIdx size).toNat = capacity (kmallocIdx size).toNat ∨
        liveCount w 0 < capacity 0 ∧ w.kernel.int (kmallocIdx size) .size = classSize (kmallocIdx size).toNat) := by
  have before := boot.present_run run
  obtain ⟨c, bound, idx, _⟩ := kmallocIdx_spec positive small
  have most := (before.inv.classes c bound).card_le
  have count : liveCount w c ≤ (w.kernel.slots c).card := (before.count c bound).1
  have counts : w.kernel.int c .size = classSize c → liveCount w c = (w.kernel.slots c).card :=
    (before.count c bound).2
  have first : liveCount w 0 = (w.kernel.slots (0 : Nat)).card := (before.count 0 (by decide)).2 before.first
  rw [before.kmalloc_some_iff positive small idx bound provided, idx, Int.toNat_natCast, Intact, first]
  constructor
  · intro same
    by_cases full : liveCount w c = capacity c
    · exact Or.inl full
    · exact Or.inr (same.mpr (by omega)).2
  · rintro (full | ⟨room, intact⟩)
    · exact ⟨fun both => by have room := both.1; omega, fun room => by omega⟩
    · have equal := counts intact
      exact ⟨fun both => by have room := both.1; omega, fun less => ⟨by omega, room, intact⟩⟩

theorem kmalloc_when_room_after_three : ∃ k pages w, Bootable k pages ∧
    ReflTransGen (Step Provided) ⟨slabinit k, []⟩ w ∧
    liveCount w 8 = 3 ∧ ∃ k' p, kmalloc w.kernel 16 = .ok (k', p) ∧ p ≠ 0 := by
  obtain ⟨k, pages, boot, enough⟩ := exists_bootable
  obtain ⟨w, _, _, run, modestRun, filled, _, _⟩ :=
    boot.fill (n := 3) (c := 8) (show (0 : Int) < 2048 by decide) (by decide)
    (by decide) (by decide) (by decide) (by omega)
  have exact := boot.exact_run (modestRun (by decide))
  have none : ∀ d : Nat, d < 8 → liveCount w d = 0 := by
    intro d bound
    rw [liveCount, exact.card_live (by omega), filled.others d (by omega) (by omega), Finset.card_empty]
  have three : liveCount w 8 = 3 := by
    rw [liveCount, exact.card_live (by decide), filled.slots, Finset.card_range]
  have one := kmalloc_when_room boot run (show (0 : Int) < 16 by decide) (by decide) fun _ _ => filled.fresh
  have idx : kmallocIdx 16 = (1 : Nat) := by decide
  rw [idx, Int.toNat_natCast, none 1 (by decide), none 0 (by decide)] at one
  exact ⟨k, pages, w, boot, run, three,
    (one.mpr (Or.inr ⟨by decide, exact.intact 1 (by decide)⟩)).mpr (by decide)⟩

/-- With all 32768 objects of 8 bytes in use, no object of 16 bytes is given out, although
none is in use. -/
theorem kmalloc_refused_with_room : ∃ k pages w, Bootable k pages ∧ ReflTransGen (Step Provided) ⟨slabinit k, []⟩ w ∧
    Provided w.kernel (kmallocIdx 16) ∧ liveCount w 1 = 0 ∧ 0 < capacity 1 ∧
    kmalloc w.kernel 16 = .ok (w.kernel, 0) := by
  obtain ⟨k, pages, boot, enough⟩ := exists_bootable
  obtain ⟨w, _, _, run, modestRun, filled, _, _⟩ :=
    boot.fill (n := 32768) (c := 0) (show (0 : Int) < 8 by decide) (by decide)
    (by decide) (by decide) (by decide) (by omega)
  have none : liveCount w 1 = 0 := by
    rw [liveCount, (boot.exact_run (modestRun (by decide))).card_live (by decide),
      filled.others 1 (by decide) (by decide), Finset.card_empty]
  have idx : kmallocIdx 16 = (1 : Nat) := by decide
  have full : (w.kernel.slots (0 : Nat)).card = capacity 0 := by
    rw [filled.slots, Finset.card_range]
    decide
  refine ⟨k, pages, w, boot, run, fun _ _ => filled.fresh, none, by decide, ?_⟩
  rw [kmalloc, if_neg (by decide), idx, (filled.present.inv.refuses_iff (by decide)).mpr (Or.inr full), if_pos rfl]

end MiniOS
