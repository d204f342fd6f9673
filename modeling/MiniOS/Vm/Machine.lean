import MiniOS.Vm.Copy

namespace MiniOS.Vm

open Lib Function

/-- The memory, and the live page directories with the sizes of their processes. -/
structure Machine where
  mem : Mem
  size : Nat → Option Nat

/-- The pages of each live directory. -/
def frames (size : Nat → Option Nat) (m : Mem) (d : Nat) : Option Nat ⊕ Nat → Option Nat :=
  match size d with
  | none => fun _ => none
  | some _ => (m.space d).frame d

section Frames

variable {size : Nat → Option Nat} {m m' : Mem} {d e sz : Nat}

theorem frames_live (live : size d = some sz) : frames size m d = (m.space d).frame d := by
  rw [frames, live]

theorem frames_dead (dead : size d = none) : frames size m d = fun _ => none := by
  rw [frames, dead]

/-- A directory whose pages are not written shows what it did. -/
theorem space_rest (kept : ∀ f ∈ Parts.rest (frames size m) d, m'.page f = m.page f) (other : e ≠ d)
    (live : size e = some sz) :
    m'.space e = m.space e := by
  refine space_kept fun f owned => kept f ⟨e, other, ?_⟩
  rwa [frames_live live]

/-- Only the pages of one directory change. -/
theorem frames_update (kept : ∀ f ∈ Parts.rest (frames size m) d, m'.page f = m.page f) (sz : Option Nat) :
    frames (update size d sz) m' = update (frames size m) d (frames (update size d sz) m' d) := by
  funext e
  by_cases same : e = d
  · subst same
    rw [update_self]
  · rw [update_of_ne same]
    cases live : size e with
    | none => rw [frames_dead live, frames_dead (by rwa [update_of_ne same])]
    | some s =>
      rw [frames_live live, frames_live (by rwa [update_of_ne same]), space_rest kept same live]

end Frames

section Machine

variable [KernelImage] {size : Nat → Option Nat} {m m' : Mem} {d sz : Nat}

/-- Each page of the pool is free or belongs to one live directory, in one place. Each directory has
a size below `KERNBASE` and no user page behind it. -/
structure Sound (size : Nat → Option Nat) (m : Mem) : Prop where
  injects : Injects (uncurry (frames size m))
  parts : Parts pool m.free ∅ (holdings (uncurry (frames size m)))
  low : ∀ d sz, size d = some sz → sz < kernbase
  bound : ∀ d sz, size d = some sz → ∀ v < 2 ^ 19, Present ((m.space d).pte v) → 4096 * v < sz

namespace Sound

section

variable (sound : Sound size m)
include sound

theorem holds (live : size d = some sz) : Holds m (Parts.rest (frames size m) d) d := by
  obtain ⟨injects, parts⟩ := Parts.focus sound.injects sound.parts d
  rw [frames_live live] at injects parts
  exact ⟨injects, parts⟩

/-- A page that is free is no directory. -/
theorem dead_of_free (free : d ∈ m.free) : size d = none := by
  cases live : size d with
  | none => rfl
  | some sz => exact absurd (Space.tree_owned (x := none) rfl) ((sound.holds live).parts.freeOwned d free)

/-- One directory has changed, or is new. -/
theorem replace (holds : Holds m' (Parts.rest (frames size m) d) d)
    (kept : ∀ f ∈ Parts.rest (frames size m) d, m'.page f = m.page f) {sz : Nat} (low : sz < kernbase)
    (bound : ∀ v < 2 ^ 19, Present ((m'.space d).pte v) → 4096 * v < sz) : Sound (update size d (some sz)) m' := by
  have here : update size d (some sz) d = some sz := update_self ..
  obtain ⟨injects, parts⟩ := Parts.unfocus sound.injects holds.injects holds.parts
  have all := frames_update kept (some sz)
  rw [frames_live here] at all
  rw [← all] at injects parts
  refine ⟨injects, parts, fun e s live => ?_, fun e s live => ?_⟩
  · by_cases same : e = d
    · subst same
      cases here.symm.trans live
      exact low
    · rw [update_of_ne same] at live
      exact sound.low e s live
  · by_cases same : e = d
    · subst same
      cases here.symm.trans live
      exact bound
    · rw [update_of_ne same] at live
      rw [space_rest kept same live]
      exact sound.bound e s live

/-- One directory is gone. -/
theorem remove (gone : Parts pool m'.free (Parts.rest (frames size m) d) ∅)
    (kept : ∀ f ∈ Parts.rest (frames size m) d, m'.page f = m.page f) : Sound (update size d none) m' := by
  have here : update size d none d = none := update_self ..
  obtain ⟨injects, parts⟩ := Parts.unfocus sound.injects injects_none (holdings_none.symm ▸ gone)
  have all := frames_update kept none
  rw [frames_dead here] at all
  rw [← all] at injects parts
  have other : ∀ {e s}, update size d none e = some s → e ≠ d ∧ size e = some s := by
    intro e s live
    by_cases same : e = d
    · subst same
      cases here.symm.trans live
    · exact ⟨same, by rwa [update_of_ne same] at live⟩
  refine ⟨injects, parts, fun e s live => sound.low e s (other live).2, fun e s live => ?_⟩
  rw [space_rest kept (other live).1 (other live).2]
  exact sound.bound e s (other live).2

/-- Only free pages have changed. -/
theorem idle (parts : Parts pool m'.free ∅ (holdings (uncurry (frames size m))))
    (kept : ∀ f ∈ holdings (uncurry (frames size m)), m'.page f = m.page f) : Sound size m' := by
  have space : ∀ {e s}, size e = some s → m'.space e = m.space e := by
    intro e s live
    refine space_kept fun f owned => kept f ?_
    obtain ⟨x, held⟩ := owned
    refine ⟨(e, x), ?_⟩
    rwa [uncurry_apply_pair, frames_live live]
  have all : frames size m' = frames size m := by
    funext e
    cases live : size e with
    | none => rw [frames_dead live, frames_dead live]
    | some s => rw [frames_live live, frames_live live, space live]
  refine ⟨all ▸ sound.injects, all ▸ parts, sound.low, fun e s live => ?_⟩
  rw [space live]
  exact sound.bound e s live

end

end Sound

end Machine

end MiniOS.Vm
