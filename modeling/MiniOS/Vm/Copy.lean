import Mathlib.Order.Interval.Finset.Nat
import MiniOS.Vm.Sbrk

namespace MiniOS.Vm

open Lib

section Copy

variable [KernelImage] {before start m : Mem} {others : Set Nat} {p d sz : Nat} {T : Finset Nat}

/-- The flags and the contents of the pages of the parent. -/
def flagsIn (before : Mem) (p v : Nat) : BitVec 32 := flagsOf ((before.space p).pte v)

def contentIn (before : Mem) (p v : Nat) : Page := before.page (frameOf ((before.space p).pte v))

/-- The pages of the parent are neither free nor page tables of the child. -/
structure Parent (before start : Mem) (p d : Nat) : Prop where
  pages : ∀ f ∈ holdings ((before.space p).frame p), start.page f = before.page f
  free : ∀ f ∈ holdings ((before.space p).frame p), f ∉ start.free
  tree : ∀ f ∈ holdings ((before.space p).frame p), f ∉ holdings ((start.space d).tree d)

omit [KernelImage] in
theorem Parent.kept {P : Nat → Prop} (parent : Parent before start p d) (adds : Adds d P start m) :
    ∀ f ∈ holdings ((before.space p).frame p), m.page f = before.page f := by
  intro f owned
  rw [adds.pages f (parent.free f owned) (parent.tree f owned), parent.pages f owned]

omit [KernelImage] in
theorem space_kept (same : ∀ f ∈ holdings ((before.space p).frame p), m.page f = before.page f) :
    m.space p = before.space p :=
  space_congr (same p (Space.tree_owned (x := none) rfl)) fun i t here => same t (Space.tree_owned (x := some i) here)

/-- The copy stops only at a page that is not present in the parent. -/
theorem copyuvmFrom_spec (parent : Parent before start p d) (holds₀ : Holds start others d) (low : sz ≤ 2 ^ 31)
    (absent : ∀ v, 4096 * v < sz → ¬Present ((start.space d).pte v) ∧ v / 1024 ∈ T) :
    ∀ (rounds v : Nat) (m : Mem), 2 ^ 19 - v < rounds → v ≤ 2 ^ 19 →
      Filling others d 0 sz (flagsIn before p) (contentIn before p) T start v m →
      wp (copyuvmFrom p d sz rounds (4096 * v)) m
        (fun r m' => Holds m' others d ∧ Adds d (Within 0 sz) start m' ∧
          ((r = true ∧ Filled d 0 sz (flagsIn before p) (contentIn before p) start m' ∧
            Paid d T ((sz + 4095) / 4096) start m') ∨
            (r = false ∧ Unpaid d T ((sz + 4095) / 4096) start m')))
        fun _ => ∃ v, 4096 * v < sz ∧ ¬Present ((before.space p).pte v) := by
  intro rounds
  induction rounds with
  | zero => exact fun v _ enough => absurd enough (Nat.not_lt_zero _)
  | succ rounds ih =>
    intro v m enough bound filling
    unfold copyuvmFrom
    refine wp_ite (fun below => ?_) fun done => ?_
    · have next : (4096 * v + pgsize) % 2 ^ 32 = 4096 * (v + 1) := by
        simp only [pgsize]
        omega
      have kept := parent.kept filling.adds
      have same := space_kept kept
      by_cases present : Present ((before.space p).pte v)
      swap
      · have index : pdx (4096 * v) = v / 1024 := pdx_page (by omega)
        cases table : (m.space p).table (v / 1024) with
        | none =>
          rw [wp_bind, wp, walkpgdir_none (index ▸ table)]
          exact ⟨v, below, present⟩
        | some t =>
          rw [wp_bind, wp, walkpgdir_some false (index ▸ table)]
          refine wp_get_seq ?_
          rw [ptx_page, ← pte_some table, same, if_pos present]
          exact ⟨v, below, present⟩
      have mapped : (before.space p).user v = some (frameOf ((before.space p).pte v)) :=
        Space.user_of_present (by omega) present
      obtain ⟨t, table, value⟩ := walk_present (m := m) (d := p) (v := v) (same ▸ present) (by omega)
      rw [wp_bind, wp, walkpgdir_some false table]
      refine wp_get_seq ?_
      rw [value, same, if_neg (not_not.2 present), kept _ (Space.user_owned mapped)]
      refine wp_seq (wp_mono (kalloc_spec m) (fun _ _ => id) fun _ => False.elim) ?_
      rintro r m₁ (⟨rfl, rfl, none⟩ | ⟨f, rest, rfl, frees, rfl⟩)
      · obtain ⟨holds', adds', _, refused⟩ := filling.refused none
        exact ⟨holds', adds', .inr ⟨rfl, refused.mono (by omega)⟩⟩
      · obtain ⟨member, new, mapping⟩ :=
          filling.next holds₀ (fun _ => flagsOf_lt _) (by omega) below (absent v below) frees
        refine wp_modify_seq (wp_seq (wp_mono mapping (fun _ _ => id) fun _ => False.elim) ?_)
        rintro r m₂ (⟨rfl, filling₂⟩ | ⟨rfl, holds₂, adds₂, _, refused⟩)
        · rw [if_neg (by decide), next]
          exact ih (v + 1) m₂ (by omega) (by omega) filling₂
        · rw [if_pos (by decide), wp_bind, wp, kfree_eq ((holds₂.parts.cover f).2 (.inr (.inl (Set.mem_insert f _))))]
          obtain ⟨_, given⟩ := adds₂.give holds₂ member
          exact ⟨holds₂.give new, given, .inr ⟨rfl, (refused.mono (by omega)).after rfl⟩⟩
    · obtain ⟨holds, adds, filled, paid⟩ := filling.done done
      exact ⟨holds, adds, .inl ⟨rfl, filled, paid⟩⟩

/-- `copyuvm` copies the pages of a parent whose pages are not free. If a `kalloc` returns 0,
it frees again what it took. -/
theorem copyuvm_spec (parts : Parts pool m.free others ∅) (apart : ∀ f ∈ holdings ((m.space p).frame p), f ∉ m.free)
    (low : sz ≤ 2 ^ 31) (kernelTables : ∀ i, KernelTable i → i ∈ T) (userTables : ∀ v, 4096 * v < sz → v / 1024 ∈ T) :
    wp (copyuvm p sz) m
      (fun r m' => (∀ f, f ∉ m.free → m'.page f = m.page f) ∧
        ((r = none ∧ Parts pool m'.free others ∅ ∧ m.missed < m'.missed ∧
          ¬m.Ample (1 + (T.card + (sz + 4095) / 4096))) ∨
          ∃ d start, r = some d ∧ setupkvm m = .ok (some d, start) ∧ Holds start others d ∧
          KernelOnly (start.space d) ∧ Holds m' others d ∧
            Adds d (Within 0 sz) start m' ∧ Filled d 0 sz (flagsIn m p) (contentIn m p) start m' ∧
            m'.missed = m.missed))
      fun _ => ∃ v, 4096 * v < sz ∧ ¬Present ((m.space p).pte v) := by
  unfold copyuvm
  obtain ⟨r, m₁, ended, pages, ends⟩ := wp_ends (setupkvm_spec parts kernelTables)
  rw [wp_bind, wp, ended]
  rcases ends with ⟨rfl, parts₁, missed, few⟩ | ⟨d, rfl, member, holds₁, kernel, missed, stock⟩
  · exact ⟨pages, .inl ⟨rfl, parts₁, missed, fun ample => few (ample.mono (by omega))⟩⟩
  have owned₁ : ∀ f, f ∉ m.free → f ∉ m₁.free ∧ f ∉ holdings ((m₁.space d).tree d) := by
    intro f outside
    refine ⟨fun left => outside (parts.free_was_free holds₁.parts left), ?_⟩
    rintro ⟨x, held⟩
    exact outside (parts.owned_was_free holds₁.parts (Space.tree_owned held))
  have parent : Parent m m₁ p d :=
    ⟨fun f owned => pages f (apart f owned), fun f owned => (owned₁ f (apart f owned)).1,
      fun f owned => (owned₁ f (apart f owned)).2⟩
  have absent : ∀ v, 4096 * v < sz → ¬Present ((m₁.space d).pte v) ∧ v / 1024 ∈ T := by
    intro v below
    rw [kernel.pte, kernelPte_low (by omega)]
    exact ⟨not_present_zero, userTables v below⟩
  refine wp_seq (copyuvmFrom_spec parent holds₁ low absent npages 0 m₁ (by decide) (Nat.zero_le _)
    (.init holds₁ ..)) ?_
  rintro r m₂ ⟨holds₂, adds, ends⟩
  have pages₂ : ∀ f, f ∉ m.free → m₂.page f = m.page f := by
    intro f outside
    obtain ⟨notFree, notTree⟩ := owned₁ f outside
    rw [adds.pages f notFree notTree, pages f outside]
  rcases ends with ⟨rfl, filled, paid⟩ | ⟨rfl, refused⟩
  · rw [if_pos rfl]
    exact ⟨pages₂, .inr ⟨d, m₁, rfl, rfl, holds₁, kernel, holds₂, adds, filled, paid.missed.trans missed⟩⟩
  · rw [if_neg (by decide)]
    refine wp_seq (wp_mono (freevm_spec holds₂) (fun _ _ => id) fun _ => False.elim) ?_
    rintro _ m₃ ⟨parts₃, pages₃, missed₃⟩
    refine ⟨fun f outside => ?_, .inl ⟨rfl, parts₃, ?_, fun ample => refused.stock (stock _ ample)⟩⟩
    · rw [pages₃ f fun mine => outside (parts.owned_was_free holds₂.parts mine), pages₂ f outside]
    · rw [missed₃, ← missed]
      exact refused.missed

/-- The page tables of the kernel half and of the user pages below the size. -/
def copyTables (sz : Nat) : Finset Nat :=
  Finset.Ico 512 568 ∪ Finset.Ico 1016 1024 ∪ Finset.range (((sz + 4095) / 4096 + 1023) / 1024)

/-- The pages that `copyuvm` takes: the directory, 64 page tables for the kernel half, one for every
1024 user pages, and the user pages. -/
def copyPages (sz : Nat) : Nat := 1 + (64 + ((sz + 4095) / 4096 + 1023) / 1024 + (sz + 4095) / 4096)

omit [KernelImage] in
theorem card_copyTables (sz : Nat) : (copyTables sz).card ≤ 64 + ((sz + 4095) / 4096 + 1023) / 1024 := by
  have kernel := Finset.card_union_le (Finset.Ico 512 568) (Finset.Ico 1016 1024)
  rw [Nat.card_Ico, Nat.card_Ico] at kernel
  refine (Finset.card_union_le ..).trans ?_
  rw [Finset.card_range]
  omega

/-- If no page of the parent is missing, `copyuvm` ends, and it returns a directory if `kalloc` has
the pages. -/
theorem copyuvm_complete (nodup : m.free.Nodup) (inside : ∀ f ∈ m.free, f ∈ pool)
    (unowned : ∀ f ∈ holdings ((m.space p).frame p), f ∉ m.free) (low : sz ≤ kernbase)
    (present : ∀ v, 4096 * v < sz → Present ((m.space p).pte v)) :
    ∃ r m', copyuvm p sz m = .ok (r, m') ∧ (∀ f, f ∉ m.free → m'.page f = m.page f) ∧
      ((r = none ∧ m.missed < m'.missed ∧ ¬m.Ample (copyPages sz)) ∨
        ∃ d start, r = some d ∧ setupkvm m = .ok (some d, start) ∧ Holds start {f | f ∈ pool ∧ f ∉ m.free} d ∧
          KernelOnly (start.space d) ∧ Holds m' {f | f ∈ pool ∧ f ∉ m.free} d ∧
          Filled d 0 sz (flagsIn m p) (contentIn m p) start m' ∧ m'.missed = m.missed) := by
  simp only [kernbase] at low
  have complete : Stop → (∃ v, 4096 * v < sz ∧ ¬Present ((m.space p).pte v)) → False := fun _ lacks =>
    lacks.elim fun v lacks => lacks.2 (present v lacks.1)
  have kernelTables : ∀ i, KernelTable i → i ∈ copyTables sz := by
    intro i kernel
    rw [KernelTable] at kernel
    simp only [copyTables, Finset.mem_union, Finset.mem_Ico]
    exact .inl kernel
  have userTables : ∀ v, 4096 * v < sz → v / 1024 ∈ copyTables sz := fun v below =>
    Finset.mem_union_right _ (Finset.mem_range.2 (by omega))
  obtain ⟨r, m', ended, pages, ends⟩ :=
    wp_ends (wp_mono (copyuvm_spec (.of_free nodup inside) unowned low kernelTables userTables)
      (fun _ _ => id) complete)
  refine ⟨r, m', ended, pages, ?_⟩
  rcases ends with ⟨rfl, _, refused, few⟩ | ⟨d, start, rfl, built, before, kernel, after, _, filled, served⟩
  · refine .inl ⟨rfl, refused, fun ample => few (ample.mono ?_)⟩
    have tables := card_copyTables sz
    rw [copyPages]
    omega
  · exact .inr ⟨d, start, rfl, built, before, kernel, after, filled, served⟩

/-- `copyuvm` ends, and the parent is as before. If `kalloc` has the pages, no call of it returns 0.
Then `copyuvm` returns a directory with a copy of every user page, in pages of its own, and with
the kernel half that `setupkvm` builds. -/
theorem copyuvm_copies (m : Mem) (p sz : Nat) (nodup : m.free.Nodup) (inside : ∀ f ∈ m.free, f ∈ pool)
    (unowned : ∀ f ∈ holdings ((m.space p).frame p), f ∉ m.free) (low : sz ≤ kernbase)
    (present : ∀ v, 4096 * v < sz → Present ((m.space p).pte v)) :
    ∃ r m', copyuvm p sz m = .ok (r, m') ∧ m'.space p = m.space p ∧
      (∀ f ∈ holdings ((m.space p).frame p), m'.page f = m.page f) ∧ (m.Ample (copyPages sz) → m'.missed = m.missed) ∧
      (m'.missed = m.missed → ∃ d start, r = some d ∧ setupkvm m = .ok (some d, start) ∧
        (∀ v, 4096 * v < sz → ∃ f, (m'.space d).user v = some f ∧ f ∉ holdings ((m.space p).frame p) ∧
          flagsOf ((m'.space d).pte v) = flagsOf ((m.space p).pte v) ∧
          m'.page f = m.page (frameOf ((m.space p).pte v))) ∧
        Injects (m'.space d).user ∧ (∀ v < 2 ^ 19, sz ≤ 4096 * v → ¬Present ((m'.space d).pte v)) ∧
        ∀ v, 2 ^ 19 ≤ v → (m'.space d).pte v = (start.space d).pte v) := by
  obtain ⟨r, m', ended, pages, ends⟩ := copyuvm_complete nodup inside unowned low present
  simp only [kernbase] at low
  have parts := Parts.of_free nodup inside
  have kept : ∀ f ∈ holdings ((m.space p).frame p), m'.page f = m.page f := fun f owned => pages f (unowned f owned)
  refine ⟨r, m', ended, space_kept kept, kept, ?_⟩
  rcases ends with ⟨_, refused, few⟩ | ⟨d, start, rfl, built, before, kernel, after, filled, served⟩
  · exact ⟨fun ample => absurd ample few, fun served => by omega⟩
  refine ⟨fun _ => served, fun _ => ⟨d, start, rfl, built, fun v below => ?_, after.injects.comp Sum.inr_injective,
    fun v user above => ?_, fun v high => ?_⟩⟩
  · obtain ⟨f, member, value, mapped, page⟩ :=
      filled.user before (fun _ => flagsOf_lt _) (Nat.zero_le v) below (by omega)
    refine ⟨f, mapped, fun owned => unowned f owned (parts.free_was_free before.parts member), ?_, page⟩
    rw [value, flagsIn, flagsOf_pteFor (before.dir.small f member) (flagsOf_lt _)]
    exact flagsOf_present (present v below)
  · rw [filled.outside v (Or.inr above), kernel.pte, kernelPte_low user]
    exact not_present_zero
  · exact filled.outside v (Or.inr (by omega))

end Copy

/-- The page of the first process is copied to a child. -/
theorem copyuvm_copies_one_page : ∃ _ : KernelImage, ∃ m p d m', Present ((m.space p).pte 0) ∧
    m.Ample (copyPages 4096) ∧
    copyuvm p 4096 m = .ok (some d, m') ∧ ∃ f, (m'.space d).user 0 = some f ∧ (m.space p).user 0 ≠ some f ∧
      m'.page f = m.page (frameOf ((m.space p).pte 0)) := by
  refine ⟨smallImage, ?_⟩
  let image := smallImage
  obtain ⟨p, _, m, others, _, _, holds, sized, stocked⟩ := exists_onePage
  have present : ∀ v, 4096 * v < 4096 → Present ((m.space p).pte v) := fun v below => (sized v (by omega)).2 below
  have ample : m.Ample (copyPages 4096) := stocked.ample.mono (by decide)
  obtain ⟨r, m', ended, _, _, served, copied⟩ :=
    copyuvm_copies m p 4096 holds.parts.nodup (fun f => holds.parts.free_pool)
    (fun f owned free => holds.parts.freeOwned f free owned) (by decide) present
  obtain ⟨d, start, rfl, _, pages, _⟩ := copied (served ample)
  obtain ⟨f, mapped, new, _, same⟩ := pages 0 (by decide)
  exact ⟨m, p, d, m', present 0 (by decide), ample, ended, f, mapped, fun mine => new (Space.user_owned mine), same⟩

end MiniOS.Vm
