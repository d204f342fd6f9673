import MiniOS.Vm.Fill

namespace MiniOS.Vm

open Lib

/-- The pages from `lo` to the address `hi` are new, zeroed and writable. -/
abbrev Zeroed (d lo hi : Nat) (m m' : Mem) : Prop := Filled d lo hi (fun _ => pteW ||| pteU) (fun _ _ => 0) m m'

theorem flags_lt : ∀ _ : Nat, (pteW ||| pteU).toNat < 4096 := fun _ => by decide

section Loop

variable [KernelImage] {start m m' : Mem} {others others' : Set Nat} {d lo hi top : Nat} {T : Finset Nat}

/-- `deallocuvm` after a growth that failed leaves the mappings that were there at the start. -/
theorem undone {P : Nat → Prop} (before : Holds start others d) (low : top < 2 ^ 31)
    (absent : ∀ v, lo ≤ v → 4096 * v < top → ¬Present ((start.space d).pte v))
    (adds : Adds d P start m) (filled : Zeroed d lo hi start m) (order : hi ≤ top) (shrunk : Shrunk d lo top m m')
    (after : Holds m' others' d) (more : others ⊆ others') :
    Adds d P start m' ∧ ∀ v, (m'.space d).translate v = (start.space d).translate v := by
  have pte : ∀ v, v < lo ∨ top ≤ 4096 * v → (m'.space d).pte v = (start.space d).pte v := by
    intro v other
    rw [shrunk.pte, unmapped, if_neg (by omega), filled.outside v (by omega)]
  have gone : ∀ v, lo ≤ v → 4096 * v < top → ¬Present ((m'.space d).pte v) := by
    intro v above below
    rw [shrunk.pte, unmapped]
    split
    · exact not_present_zero
    · rename_i absent
      exact fun present => absent ⟨above, below, present⟩
  have split : ∀ v, (v < lo ∨ top ≤ 4096 * v) ∨ lo ≤ v ∧ 4096 * v < top := by
    intro v
    omega
  have tables := Space.tree_congr shrunk.table d
  refine ⟨⟨fun i t here => ?_, fun i other => ?_, fun f owned => ?_, fun f member => ?_, fun f notFree outside => ?_⟩,
    fun v => ?_⟩
  · rw [shrunk.table]
    exact adds.kept i t here
  · rw [shrunk.table]
    exact adds.same i other
  · rw [tables] at owned
    exact adds.tree f owned
  · -- a page that is free now belonged neither to others nor to the directory
    refine before.parts.mem_free_iff.2 ⟨after.parts.free_pool member,
      fun other => after.parts.freeOthers f member (more other), ?_⟩
    rintro ⟨x | v, here⟩
    · refine after.dir.fresh f member ⟨x, ?_⟩
      rw [tables]
      cases x with
      | none => exact here
      | some i => exact adds.kept i f here
    · obtain ⟨_, present, _⟩ := Space.user_some here
      rcases split v with other | ⟨above, below⟩
      · refine after.parts.freeOwned f member (Space.user_owned (v := v) ?_)
        rw [Space.user_congr (pte v other)]
        exact here
      · exact absent v above below present
  · rw [shrunk.pages f, adds.pages f notFree outside]
    · intro owned
      rcases adds.tree f owned with owned | member
      · exact outside owned
      · exact notFree member
    · intro v above below mapped
      rcases Nat.lt_or_ge (4096 * v) hi with early | late
      · obtain ⟨g, member, _, user, _⟩ := filled.user before flags_lt above early (by omega)
        exact notFree (Option.some.inj (mapped.symm.trans user) ▸ member)
      · obtain ⟨_, present, _⟩ := Space.user_some mapped
        rw [filled.outside v (.inr late)] at present
        exact absent v above below present
  · rcases split v with other | ⟨above, below⟩
    · rw [Space.translate, Space.translate, pte v other]
    · rw [Space.translate, Space.translate, if_neg (gone v above below), if_neg (absent v above below)]

theorem allocuvmFrom_spec {oldsz : Nat} (before : Holds start others d) (low : top < 2 ^ 31)
    (atLo : lo = (oldsz + 4095) / 4096)
    (absent : ∀ v, lo ≤ v → 4096 * v < top → ¬Present ((start.space d).pte v) ∧ v / 1024 ∈ T) :
    ∀ (rounds v : Nat) (m : Mem), 2 ^ 19 - v < rounds → v ≤ 2 ^ 19 →
      Filling others d lo top (fun _ => pteW ||| pteU) (fun _ _ => 0) T start v m →
      wp (allocuvmFrom d oldsz top rounds (4096 * v)) m
        (fun r m' => Holds m' others d ∧ Adds d (Within lo top) start m' ∧
          ((r = true ∧ Zeroed d lo top start m' ∧ Paid d T ((top + 4095) / 4096 - lo) start m') ∨
            (r = false ∧ (∀ v, (m'.space d).translate v = (start.space d).translate v) ∧
              Unpaid d T ((top + 4095) / 4096 - lo) start m')))
        fun _ => False := by
  intro rounds
  induction rounds with
  | zero => exact fun v _ enough => absurd enough (Nat.not_lt_zero _)
  | succ rounds ih =>
    intro v m enough bound filling
    unfold allocuvmFrom
    refine wp_ite (fun below => ?_) fun done => ?_
    · have next : (4096 * v + pgsize) % 2 ^ 32 = 4096 * (v + 1) := by
        simp only [pgsize]
        omega
      have size : top ≤ kernbase := by
        simp only [kernbase]
        omega
      have above := filling.above
      have vacant := fun v above below => (absent v above below).1
      refine wp_seq (kalloc_spec m) ?_
      rintro r m₁ (⟨rfl, rfl, none⟩ | ⟨f, rest, rfl, frees, rfl⟩)
      · obtain ⟨holds', adds', filled', refused⟩ := filling.refused none
        refine wp_seq (deallocuvm_spec holds' size (by omega)) ?_
        rintro _ m' ⟨_, after, shrunk⟩
        rw [← atLo] at shrunk
        obtain ⟨adds', same⟩ := undone before low vacant adds' filled' (Nat.le_of_lt below) shrunk after
          (Set.Subset.refl _)
        exact ⟨after, adds', .inr ⟨rfl, same, (refused.mono (by omega)).after shrunk.missed⟩⟩
      · obtain ⟨member, new, mapping⟩ := filling.next before flags_lt (by omega) below (absent v above below) frees
        refine wp_modify_seq (wp_seq mapping ?_)
        rintro r m₂ (⟨rfl, filling₂⟩ | ⟨rfl, holds₂, adds₂, filled₂, refused⟩)
        · rw [if_neg (by decide), next]
          exact ih (v + 1) m₂ (by omega) (by omega) filling₂
        · rw [if_pos (by decide)]
          refine wp_seq (deallocuvm_spec holds₂ size (by omega)) ?_
          rintro _ m₃ ⟨_, holds₃, shrunk⟩
          rw [← atLo] at shrunk
          obtain ⟨adds₃, same⟩ := undone before low vacant adds₂ filled₂ (Nat.le_of_lt below) shrunk holds₃
            (Set.subset_insert _ _)
          obtain ⟨space, given⟩ := adds₃.give holds₃ member
          rw [wp_bind, wp, kfree_eq ((holds₃.parts.cover f).2 (.inr (.inl (Set.mem_insert f _))))]
          refine ⟨holds₃.give new, given, .inr ⟨rfl, ?_, (refused.mono (by omega)).after shrunk.missed⟩⟩
          rw [space]
          exact same
    · obtain ⟨holds, adds, filled, paid⟩ := filling.done done
      exact ⟨holds, adds, .inl ⟨rfl, filled, paid⟩⟩

/-- `allocuvm` maps zeroed pages up to the new size, or leaves the mappings as they were. -/
theorem allocuvm_spec {oldsz newsz : Nat} (holds : Holds m others d) (low : newsz < kernbase) (order : oldsz ≤ newsz)
    (absent : ∀ v, (oldsz + 4095) / 4096 ≤ v → 4096 * v < newsz → ¬Present ((m.space d).pte v) ∧ v / 1024 ∈ T) :
    wp (allocuvm d oldsz newsz) m
      (fun r m' => Holds m' others d ∧ Adds d (Within ((oldsz + 4095) / 4096) newsz) m m' ∧
        ((r = newsz ∧ Zeroed d ((oldsz + 4095) / 4096) newsz m m' ∧
            Paid d T ((newsz + 4095) / 4096 - (oldsz + 4095) / 4096) m m') ∨
          (r = 0 ∧ (∀ v, (m'.space d).translate v = (m.space d).translate v) ∧
            Unpaid d T ((newsz + 4095) / 4096 - (oldsz + 4095) / 4096) m m')))
      fun _ => False := by
  have size : newsz < 2 ^ 31 := by
    simp only [kernbase] at low
    omega
  have start : pgroundup oldsz = 4096 * ((oldsz + 4095) / 4096) := by
    rw [pgroundup]
    omega
  unfold allocuvm
  rw [if_neg (Nat.not_le.2 low), if_neg (Nat.not_lt.2 order), start]
  refine wp_seq (allocuvmFrom_spec holds size rfl absent npages _ m ?_ (by omega) (.init holds ..)) ?_
  · simp only [npages]
    omega
  · rintro r m' ⟨after, adds, ends⟩
    refine ⟨after, adds, ?_⟩
    rcases ends with ⟨rfl, filled⟩ | ⟨rfl, undone⟩
    · exact .inl ⟨rfl, filled⟩
    · exact .inr ⟨rfl, undone⟩

end Loop

end MiniOS.Vm
