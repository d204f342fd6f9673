import MiniOS.Slab.Present

namespace MiniOS

open Lib Relation

variable {k k' : Kernel} {live : List Obj} {size : Int} {c z p : Nat} {w w' : World} {pages : List Nat} {o : Obj}

/-- No class has more than 99 pages. -/
def Modest (k : Kernel) : Prop := ∀ c : Nat, c < 9 → k.int c .numPages ≤ 99

/-- The steps of a run in which `kalloc` never fails and no class gets more than 99 pages. -/
def ModestStep (w w' : World) : Prop := Step Provided w w' ∧ Modest w'.kernel

theorem ModestStep.run (run : ReflTransGen ModestStep w w') : ReflTransGen (Step Provided) w w' :=
  run.lift id fun _ _ step => step.1

/-- What holds in such a run: no class loses its size. -/
structure Exact (w : World) : Prop extends Present w where
  intact : AllIntact w.kernel

theorem Served.page_lt_of_modest (served : Served k size c z)
    (alloc : Allocated k k' c z size p) (modest : Modest k') : z / perPage c < 99 := by
  have limit := modest c served.bound
  have page : z / perPage c < pagesInUse (perPage c) (insert z (k.slots c)) :=
    served.lowest.page_lt_pagesInUse (perPage_pos served.bound)
  rw [alloc.numPages] at limit
  omega

namespace Exact

theorem card_live (exact : Exact w) (bound : c < 9) : w.live.countP (fun o => o.cls = c) = (w.kernel.slots c).card :=
  (exact.count c bound).2 (exact.intact c bound)

theorem given (exact : Exact ⟨k, live⟩) (served : Served k size c z) (provided : Provided k (kmallocIdx size)) :
    ∃ k' p, Given k size c z k' p :=
  exact.toPresent.given served (exact.intact c served.bound) provided

theorem kmfree_exact (exact : Exact ⟨k, live⟩) (member : o ∈ live) :
    ∃ k', kmfree k o.addr (classSize o.cls) = .ok k' ∧ Exact ⟨k', live.erase o⟩ ∧
    ∀ o' ∈ live.erase o, Unchanged k k' o' := by
  obtain ⟨p, y, clears, frees⟩ := exact.inv.frees member (.inl exact.intact)
  obtain ⟨k', call, freed⟩ := frees.kmfree_spec
  exact ⟨k', call, ⟨exact.toPresent.kmfree member clears frees freed, freed.allIntact exact.intact⟩,
    fun o' member' a low high => freed.object_mem clears frees exact.inv member exact.present member' low high⟩

/-- Every step keeps the sizes of the classes. -/
theorem step (exact : Exact w) (step : ModestStep w w') : Exact w' := by
  obtain ⟨step, modest⟩ := step
  refine ⟨exact.toPresent.step step, ?_⟩
  cases step with
  | kmalloc positive small provided call =>
    rcases exact.inv.kmalloc_cases positive small with refused | ⟨c, z, served⟩
    · rw [refused] at call
      cases call
      exact exact.intact
    · obtain ⟨k', p, given⟩ := exact.given served provided
      rw [given.call] at call
      cases call
      exact given.alloc.allIntact given.takes (served.page_lt_of_modest given.alloc modest) exact.intact
  | kmfree member call =>
    obtain ⟨k', result, after, _⟩ := exact.kmfree_exact member
    rw [result] at call
    cases call
    exact after.intact
  | write member inside => exact exact.intact
  | elsewhere elsewhere => exact fun c bound => (intact_congr elsewhere.words).2 (exact.intact c bound)

end Exact

theorem Bootable.exact (boot : Bootable k pages) : Exact ⟨slabinit k, []⟩ := ⟨boot.present, boot.slabinit_inv.2.1⟩

theorem Bootable.exact_run (boot : Bootable k pages) (run : ReflTransGen ModestStep ⟨slabinit k, []⟩ w) : Exact w :=
  run_induction Exact.step boot.exact run

end MiniOS
