import Mathlib.Data.List.Pairwise
import MiniOS.Fs.Agrees

namespace MiniOS

open Lib

/-- All slots of an inode. -/
def Slot.all : List Slot := (List.finRange 13).map .addr ++ (List.finRange 128).map .entry

theorem Slot.mem_all (x : Slot) : x ∈ Slot.all := by
  cases x with
  | addr k => exact List.mem_append_left _ (List.mem_map_of_mem (List.mem_finRange k))
  | entry j => exact List.mem_append_right _ (List.mem_map_of_mem (List.mem_finRange j))

/-- All slots of the inodes that are allocated. -/
def slotsOf (sb : Superblock) (block : Nat → Block) : List (Nat × Slot) :=
  ((List.range sb.ninodes).filter fun i => (dinodeOf sb block i).type ≠ 0).flatMap fun i =>
  Slot.all.map fun x => (i, x)

/-- The blocks that are held, once for every slot that holds one. -/
def heldBlocks (sb : Superblock) (block : Nat → Block) : List Nat :=
  (slotsOf sb block).filterMap fun x => slotBlock block (dinodeOf sb block x.1) x.2

section Check

variable {sb : Superblock} {block : Nat → Block} {x : Nat × Slot}

theorem mem_slotsOf : x ∈ slotsOf sb block ↔ x.1 < sb.ninodes ∧ (dinodeOf sb block x.1).type ≠ 0 := by
  simp only [slotsOf, List.mem_flatMap, List.mem_filter, List.mem_range, List.mem_map, decide_eq_true_eq]
  constructor
  · rintro ⟨i, inside, y, -, rfl⟩
    exact inside
  · exact fun inside => ⟨x.1, inside, x.2, Slot.mem_all x.2, rfl⟩

theorem owner_eq_some_iff {b : Nat} : owner sb block (dinodeOf sb block) x = some b ↔
    x ∈ slotsOf sb block ∧ slotBlock block (dinodeOf sb block x.1) x.2 = some b := by
  rw [owner, mem_slotsOf]
  split
  · exact ⟨fun here => ⟨by assumption, here⟩, fun here => here.2⟩
  · exact ⟨fun wrong => (by cases wrong), fun here => absurd here.1 (by assumption)⟩

/-- The conditions on an image as a check that a program can make. -/
theorem Image.of_check (laid : sb.Laid) (apart : (heldBlocks sb block).Nodup)
    (range : ∀ b ∈ heldBlocks sb block, sb.dataStart ≤ b ∧ b < sb.size)
    (map : ∀ b < sb.size, inUse sb block b = true ↔ b < sb.dataStart ∨ b ∈ heldBlocks sb block)
    (mapped : ∀ i < sb.ninodes, (dinodeOf sb block i).type ≠ 0 →
      ∀ bn < ((dinodeOf sb block i).size.toNat + 511) / 512,
      (fileBlock block (dinodeOf sb block i) bn).isSome = true) : Image sb block (dinodeOf sb block) := by
  have held : ∀ {b}, b ∈ heldBlocks sb block ↔ ∃ x, owner sb block (dinodeOf sb block) x = some b := by
    intro b
    simp only [heldBlocks, List.mem_filterMap, owner_eq_some_iff]
  refine ⟨laid, ⟨fun here => range _ (held.2 ⟨_, here⟩), fun {x y b} left right => ?_, fun inside => ?_⟩,
    fun i inside used bn covered => ?_⟩
  · by_contra other
    rw [owner_eq_some_iff] at left right
    rw [heldBlocks, List.Nodup, List.pairwise_filterMap] at apart
    have symmetric : Std.Symm fun x y : Nat × Slot => ∀ b, slotBlock block (dinodeOf sb block x.1) x.2 = some b →
        ∀ c, slotBlock block (dinodeOf sb block y.1) y.2 = some c → b ≠ c :=
        ⟨fun _ _ far b here c there => (far c there b here).symm⟩
    exact apart.forall left.1 right.1 other b left.2 b right.2 rfl
  · rw [map _ inside, held]
  · exact mapped i inside used bn (by omega)

theorem WellFormedImage.of_check (image : Image sb block (dinodeOf sb block))
    (names : ∀ i < sb.ninodes, (dinodeOf sb block i).type = tDir →
      ∀ de ∈ entries (contents block (dinodeOf sb block i)), de.inum.toNat < sb.ninodes) : WellFormedImage sb
        block := by
  refine ⟨image, fun i n there dir => ?_⟩
  obtain ⟨⟨inside, -⟩, rfl⟩ := nodeAt_eq_some.1 there
  exact names i inside dir

/-- The disk that `mkfs` lays out for 1000 blocks and 200 inodes. -/
def mkfsSuper : Superblock := ⟨1000, 941, 200, 30, 2, 32, 58⟩

theorem mkfsSuper_laid : mkfsSuper.Laid := ⟨by decide, by decide, by decide, by decide⟩

/-- A disk with an empty root directory. -/
def emptyRoot (b : Nat) : Block := fun x =>
  if b = 58 then if x < 7 then 0xFF else if x = 7 then 0x07 else 0
  else if b = 32 ∧ (x = 64 ∨ x = 70) then 1 else 0

theorem emptyRoot_wellFormed : WellFormedImage mkfsSuper emptyRoot :=
  .of_check (.of_check mkfsSuper_laid (by decide +kernel) (by decide +kernel) (by decide +kernel) (by decide +kernel))
  (by decide +kernel)

end Check

end MiniOS
