import MiniOS.Proc.Table
import Mathlib.Data.Finset.Basic

namespace MiniOS

/-- The page that holds the kernel stack of a process, or its page directory. -/
inductive PageUse
  | stack (i : Fin nproc)
  | dir (i : Fin nproc)
  deriving DecidableEq

/-- The process table with the pages of `kalloc`: those on the free list, and those that
were allocated for other things than kernel stacks and page directories. -/
structure PagedProcs where
  procs : Procs
  free : Finset Nat
  others : Finset Nat

/-- The steps of the system with the pages they allocate and free. `rest` has the steps of
`ProcStep` that none of the first four constructors is about: no process begins or ceases to
have a stack and no directory, and no `wait` finds a child. -/
inductive PagedStep : PagedProcs → PagedProcs → Prop
  | kstack {s : Procs} {free others : Finset Nat} (p np : Fin nproc) (page : Nat) : (s.proc p).state = .running →
      s.pc p = .forking np → page ∈ free →
      PagedStep ⟨s, free, others⟩
        ⟨(s.withProc (s.proc.setStack np page)).goto p (.stacked np), free.erase page, others⟩
  | copied {s : Procs} {free others : Finset Nat} (p np : Fin nproc) (page : Nat) : (s.proc p).state = .running →
      s.pc p = .stacked np → page ∈ free →
      PagedStep ⟨s, free, others⟩
        ⟨(s.withProc ((s.proc.setDir np page).setParent np p)).goto p (.forked np), free.erase page, others⟩
  | noMemory {s : Procs} {free others : Finset Nat} (p np : Fin nproc) : (s.proc p).state = .running →
      s.pc p = .stacked np →
      PagedStep ⟨s, free, others⟩
        ⟨(s.withProc ((s.proc.setDir np 0).giveBack np)).goto p .elsewhere, insert (s.proc np).kstack free, others⟩
  | waited {s : Procs} {free others : Finset Nat} (p child : Fin nproc) : (s.proc p).state = .running →
      s.pc p = .waiting → s.proc.exitedChild p = some child →
      PagedStep ⟨s, free, others⟩ ⟨(s.withProc (s.proc.reap child)).goto p .elsewhere,
        insert (s.proc child).kstack (insert (s.proc child).pgdir free), others⟩
  | rest {s t : Procs} {free others : Finset Nat} {event : Option ProcEvent} :
      ProcStep (fun _ _ => True) (fun _ _ => True) s event t →
      (∀ p np, t.pc p = .stacked np ↔ s.pc p = .stacked np) →
      (∀ p child birth pid, event ≠ some (.waited p child birth pid)) →
      PagedStep ⟨s, free, others⟩ ⟨t, free, others⟩
  | takes {s : Procs} {free others : Finset Nat} (page : Nat) : page ∈ free →
      PagedStep ⟨s, free, others⟩ ⟨s, free.erase page, insert page others⟩
  | returns {s : Procs} {free others : Finset Nat} (page : Nat) : page ∈ others →
      PagedStep ⟨s, free, others⟩ ⟨s, insert page free, others.erase page⟩

/-- The state after `userinit`, which takes its pages from `pages`. -/
def PagedProcs.userinit (pages : Finset Nat) (kstack pgdir : Nat) : PagedProcs :=
  ⟨Procs.userinit kstack pgdir, (pages.erase kstack).erase pgdir, ∅⟩

namespace Procs

/-- The entry is past its creation and not released. -/
def Settled (s : Procs) (i : Fin nproc) : Prop := (s.proc i).state ≠ .unused ∧ (s.proc i).state ≠ .embryo

/-- The page is in use: the stack of a process from the time `allocproc` has it, the
directory from the time `fork` has it. -/
def Holds (s : Procs) : PageUse → Nat → Prop
  | .stack i, page => (s.Settled i ∨ ∃ p, s.pc p = .stacked i ∨ s.pc p = .forked i) ∧ (s.proc i).kstack = page
  | .dir i, page => (s.Settled i ∨ ∃ p, s.pc p = .forked i) ∧ (s.proc i).pgdir = page

end Procs

/-- No page has two uses, and a page in use is not on the free list. -/
structure PagedProcs.Apart (s : PagedProcs) : Prop where
  one : ∀ {x y page}, s.procs.Holds x page → s.procs.Holds y page → x = y
  held : ∀ {x page}, s.procs.Holds x page → page ≠ 0 ∧ page ∉ s.free ∧ page ∉ s.others
  free : ∀ {page}, page ∈ s.free → page ≠ 0 ∧ page ∉ s.others
  others : 0 ∉ s.others

namespace PagedProcs.Apart

variable {s t : Procs} {free others : Finset Nat} {page : Nat} {x : PageUse}

section

variable (apart : Apart ⟨s, free, others⟩)
include apart

/-- Pages go out of use, and the free list stays as it is. -/
theorem keep (fewer : ∀ y b, t.Holds y b → s.Holds y b) : Apart ⟨t, free, others⟩ where
  one here there := apart.one (fewer _ _ here) (fewer _ _ there)
  held here := apart.held (fewer _ _ here)
  free := apart.free
  others := apart.others

/-- A page from the free list gets a use. -/
theorem take (fresh : page ∈ free)
    (more : ∀ y b, t.Holds y b → s.Holds y b ∨ y = x ∧ b = page) : Apart ⟨t, free.erase page, others⟩ where
  one {y z b} here there := by
    rcases more y b here with old | ⟨rfl, rfl⟩
    · rcases more z b there with older | ⟨rfl, rfl⟩
      · exact apart.one old older
      · exact absurd fresh (apart.held old).2.1
    · rcases more z b there with old | ⟨rfl, _⟩
      · exact absurd fresh (apart.held old).2.1
      · rfl
  held {y b} here := by
    rcases more y b here with old | ⟨rfl, rfl⟩
    · obtain ⟨nonnull, used, apart⟩ := apart.held old
      exact ⟨nonnull, fun member => used (Finset.mem_of_mem_erase member), apart⟩
    · exact ⟨(apart.free fresh).1, Finset.notMem_erase _ _, (apart.free fresh).2⟩
  free member := apart.free (Finset.mem_of_mem_erase member)
  others := apart.others

/-- Pages lose their use and go back to the free list. -/
theorem give (pages : Finset Nat)
    (used : ∀ b ∈ pages, ∃ x, s.Holds x b ∧ ∀ c, ¬t.Holds x c)
    (fewer : ∀ y b, t.Holds y b → s.Holds y b) : Apart ⟨t, pages ∪ free, others⟩ where
  one here there := apart.one (fewer _ _ here) (fewer _ _ there)
  held {y b} here := by
    obtain ⟨nonnull, notFree, notOther⟩ := apart.held (fewer y b here)
    refine ⟨nonnull, fun member => ?_, notOther⟩
    rcases Finset.mem_union.1 member with new | before
    · obtain ⟨x, old, gone⟩ := used b new
      exact gone b (apart.one (fewer y b here) old ▸ here)
    · exact notFree before
  free {b} member := by
    rcases Finset.mem_union.1 member with new | before
    · obtain ⟨x, old, _⟩ := used b new
      exact ⟨(apart.held old).1, (apart.held old).2.2⟩
    · exact apart.free before
  others := apart.others

theorem takes (fresh : page ∈ free) :
    Apart ⟨s, free.erase page, insert page others⟩ where
  one := apart.one
  held {y b} here := by
    obtain ⟨nonnull, notFree, notOther⟩ := apart.held here
    refine ⟨nonnull, fun member => notFree (Finset.mem_of_mem_erase member), fun member => ?_⟩
    rcases Finset.mem_insert.1 member with rfl | before
    · exact notFree fresh
    · exact notOther before
  free {b} member := by
    obtain ⟨different, member⟩ := Finset.mem_erase.1 member
    refine ⟨(apart.free member).1, fun taken => ?_⟩
    exact (Finset.mem_insert.1 taken).elim different (apart.free member).2
  others member := (Finset.mem_insert.1 member).elim (fun same => (apart.free fresh).1 same.symm) apart.others

theorem returns (used : page ∈ others) :
    Apart ⟨s, insert page free, others.erase page⟩ where
  one := apart.one
  held {y b} here := by
    obtain ⟨nonnull, notFree, notOther⟩ := apart.held here
    refine ⟨nonnull, fun member => ?_, fun member => notOther (Finset.mem_of_mem_erase member)⟩
    rcases Finset.mem_insert.1 member with rfl | before
    · exact notOther used
    · exact notFree before
  free {b} member := by
    rcases Finset.mem_insert.1 member with rfl | before
    · exact ⟨fun null => apart.others (null ▸ used), Finset.notMem_erase _ _⟩
    · exact ⟨(apart.free before).1, fun member => (apart.free before).2 (Finset.mem_of_mem_erase member)⟩
  others member := apart.others (Finset.mem_of_mem_erase member)

end

end PagedProcs.Apart

end MiniOS
