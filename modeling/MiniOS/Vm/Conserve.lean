import Mathlib.Logic.ExistsUnique
import Mathlib.Logic.Relation
import MiniOS.Vm.Machine

namespace MiniOS.Vm

open Lib Function

/-- The calls on page directories, with what they return. `grow` and `shrink` are the calls of
`allocuvm` and `deallocuvm` with the size of the process, and `stack` is the call of `allocuvm`
in which `exec` adds two pages behind the image. -/
inductive Event
  | setup (r : Option Nat)
  | grow (d newsz r : Nat)
  | stack (d r : Nat)
  | shrink (d newsz r : Nat)
  | copy (d : Nat) (r : Option Nat)
  | free (d : Nat)

/-- A call that returns. The callers of `allocuvm` and `deallocuvm` keep the size of the process
if the call returns 0. -/
inductive Step [KernelImage] (M : Machine) : Event → Machine → Prop
  | setup {d : Nat} {m : Mem} (ran : setupkvm M.mem = .ok (some d, m)) :
      Step M (.setup (some d)) ⟨m, update M.size d (some 0)⟩
  | setupFails {m : Mem} (ran : setupkvm M.mem = .ok (none, m)) : Step M (.setup none) ⟨m, M.size⟩
  | grow {d sz newsz r : Nat} {m : Mem} (live : M.size d = some sz) (ran : allocuvm d sz newsz M.mem = .ok (r, m)) :
      Step M (.grow d newsz r) ⟨m, update M.size d (some (if r = 0 then sz else r))⟩
  | stack {d sz top r : Nat} {m : Mem} (live : M.size d = some sz) (behind : top = pgroundup sz + 2 * pgsize)
      (ran : allocuvm d (pgroundup sz) top M.mem = .ok (r, m)) :
      Step M (.stack d r) ⟨m, update M.size d (some (if r = 0 then sz else r))⟩
  | shrink {d sz newsz r : Nat} {m : Mem} (live : M.size d = some sz)
      (ran : deallocuvm d sz newsz M.mem = .ok (r, m)) :
      Step M (.shrink d newsz r) ⟨m, update M.size d (some (if r = 0 then sz else r))⟩
  | copy {d sz child : Nat} {m : Mem} (live : M.size d = some sz) (ran : copyuvm d sz M.mem = .ok (some child, m)) :
      Step M (.copy d (some child)) ⟨m, update M.size child (some sz)⟩
  | copyFails {d sz : Nat} {m : Mem} (live : M.size d = some sz) (ran : copyuvm d sz M.mem = .ok (none, m)) :
      Step M (.copy d none) ⟨m, M.size⟩
  | free {d sz : Nat} {m : Mem} (live : M.size d = some sz) (ran : freevm d M.mem = .ok ((), m)) :
      Step M (.free d) ⟨m, update M.size d none⟩

/-- What a call tells: a failure has left the mappings or the free list as they were, and
`freevm` has freed the pages of the directory. -/
def Event.Tells (M M' : Machine) : Event → Prop
  | .setup none => ∀ f, f ∈ M'.mem.free ↔ f ∈ M.mem.free
  | .grow d _ 0 | .stack d 0 => ∀ v, (M'.mem.space d).translate v = (M.mem.space d).translate v
  | .copy d none => (∀ f, f ∈ M'.mem.free ↔ f ∈ M.mem.free) ∧ M'.mem.space d = M.mem.space d
  | .free d => ∀ f, f ∈ M'.mem.free ↔ f ∈ M.mem.free ∨ f ∈ holdings ((M.mem.space d).frame d)
  | _ => True

theorem present_of_translate {sp sp' : Space} {v : Nat} (same : sp'.translate v = sp.translate v) :
    Present (sp'.pte v) ↔ Present (sp.pte v) := by
  rw [Space.translate, Space.translate] at same
  by_cases after : Present (sp'.pte v)
  · by_cases before : Present (sp.pte v)
    · exact ⟨fun _ => before, fun _ => after⟩
    · rw [if_pos after, if_neg before] at same
      cases same
  · by_cases before : Present (sp.pte v)
    · rw [if_neg after, if_pos before] at same
      cases same
    · exact ⟨fun present => absurd present after, fun present => absurd present before⟩

section Calls

variable [KernelImage] {size : Nat → Option Nat} {m m' : Mem} {d sz oldsz : Nat}

namespace Sound

variable {M M' : Machine}

section

variable (sound : Sound size m)
include sound

theorem same (live : size d = some sz) : Sound (update size d (some sz)) m := by
  rwa [← live, update_eq_self]

/-- `allocuvm` from the size of a process, or from the page behind it. -/
theorem allocuvm (live : size d = some sz) (start : sz ≤ oldsz) (newsz : Nat) (fits : newsz < oldsz → oldsz = sz) :
    wp (allocuvm d oldsz newsz) m
      (fun r m' => Sound (update size d (some (if r = 0 then sz else r))) m' ∧
        (r = 0 → ∀ v, (m'.space d).translate v = (m.space d).translate v))
      fun _ => False := by
  by_cases high : kernbase ≤ newsz
  · unfold Vm.allocuvm
    rw [if_pos high]
    exact ⟨sound.same live, fun _ _ => rfl⟩
  by_cases less : newsz < oldsz
  · unfold Vm.allocuvm
    rw [if_neg high, if_pos less, fits less]
    refine ⟨?_, fun _ _ => rfl⟩
    rw [ite_self]
    exact sound.same live
  have holds := sound.holds live
  have behind := sound.bound d sz live
  have absent : ∀ v, (oldsz + 4095) / 4096 ≤ v → 4096 * v < newsz →
      ¬Present ((m.space d).pte v) ∧ v / 1024 ∈ Finset.range 1024 := by
    intro v above below
    have user : v < 2 ^ 19 := by
      simp only [kernbase] at high
      omega
    refine ⟨fun present => ?_, Finset.mem_range.2 (by omega)⟩
    have inside := behind v user present
    omega
  refine wp_mono (allocuvm_spec holds (Nat.not_le.1 high) (Nat.not_lt.1 less) absent) ?_ fun _ => id
  rintro r m' ⟨holds', adds, ends⟩
  have kept : ∀ f ∈ Parts.rest (frames size m) d, m'.page f = m.page f :=
    fun f other => adds.pages f (fun free => holds.parts.freeOthers f free other) (holds.not_tree other)
  rcases ends with ⟨rfl, zeroed, _⟩ | ⟨rfl, unchanged, _⟩
  · have after : ∀ v < 2 ^ 19, Present ((m'.space d).pte v) → 4096 * v < r := by
      intro v low present
      by_contra above
      rw [zeroed.outside v (.inr (Nat.not_lt.1 above))] at present
      have inside := behind v low present
      omega
    refine ⟨?_, fun zero v => ?_⟩
    · split
      · rename_i zero
        exact sound.replace holds' kept (sound.low d sz live) fun v low present => by
          have inside := after v low present
          omega
      · exact sound.replace holds' kept (Nat.not_le.1 high) after
    · rw [Space.translate, Space.translate, zeroed.outside v (.inr (by omega))]
  · refine ⟨sound.replace holds' kept (sound.low d sz live) fun v low present => ?_, fun _ => unchanged⟩
    exact behind v low ((present_of_translate (unchanged v)).1 present)

/-- `allocuvm` of the two pages behind the image. -/
theorem stack {top : Nat} (live : size d = some sz) (behind : top = pgroundup sz + 2 * pgsize) :
    wp (Vm.allocuvm d (pgroundup sz) top) m
      (fun r m' => Sound (update size d (some (if r = 0 then sz else r))) m' ∧
        (r = 0 → ∀ v, (m'.space d).translate v = (m.space d).translate v))
      fun _ => False := by
  have low := sound.low d sz live
  have up : sz ≤ pgroundup sz := by
    simp only [pgroundup, kernbase] at low ⊢
    omega
  exact sound.allocuvm live up top fun less => absurd less (by omega)

theorem deallocuvm (live : size d = some sz) (newsz : Nat) :
    wp (deallocuvm d sz newsz) m (fun r m' => Sound (update size d (some (if r = 0 then sz else r))) m')
    fun _ => False := by
  by_cases more : newsz ≥ sz
  · unfold Vm.deallocuvm
    rw [if_pos more, wp_pure, ite_self]
    exact sound.same live
  have holds := sound.holds live
  have low := sound.low d sz live
  refine wp_mono (deallocuvm_spec holds (Nat.le_of_lt low) (Nat.not_le.1 more)) ?_ fun _ => id
  rintro r m' ⟨rfl, holds', shrunk⟩
  have kept : ∀ f ∈ Parts.rest (frames size m) d, m'.page f = m.page f := fun f other =>
    shrunk.pages f (holds.not_tree other) fun v _ _ mapped => holds.parts.apart f other (Space.user_owned mapped)
  have after : ∀ v < 2 ^ 19, Present ((m'.space d).pte v) → 4096 * v < r := by
    intro v user present
    rw [shrunk.pte, unmapped] at present
    split at present
    · exact absurd present not_present_zero
    · rename_i stays
      have inside := sound.bound d sz live v user present
      by_contra above
      exact stays ⟨by omega, inside, present⟩
  split
  · rename_i zero
    refine sound.replace holds' kept low fun v user present => ?_
    have inside := after v user present
    omega
  · exact sound.replace holds' kept (by omega) after

/-- The pages of all directories are those of others. -/
theorem parts_others : Parts pool m.free (holdings (uncurry (frames size m))) ∅ := sound.parts.swap

theorem free_same (after : Parts pool m'.free (holdings (uncurry (frames size m))) ∅) (f : Nat) :
    f ∈ m'.free ↔ f ∈ m.free :=
  ⟨sound.parts_others.free_was_free after, after.free_was_free sound.parts_others⟩

theorem kept_of_free (pages : ∀ f, f ∉ m.free → m'.page f = m.page f) :
    ∀ f ∈ holdings (uncurry (frames size m)), m'.page f = m.page f :=
  fun f owned => pages f fun free => sound.parts.freeOwned f free owned

/-- A new directory. -/
theorem add {child : Nat} (holds : Holds m' (holdings (uncurry (frames size m))) child)
    (pages : ∀ f, f ∉ m.free → m'.page f = m.page f) (low : sz < kernbase)
    (bound : ∀ v < 2 ^ 19, Present ((m'.space child).pte v) → 4096 * v < sz) :
    Sound (update size child (some sz)) m' := by
  have member : child ∈ m.free := sound.parts_others.owned_was_free holds.parts (Space.tree_owned (x := none) rfl)
  have rest : Parts.rest (frames size m) child = holdings (uncurry (frames size m)) :=
    Parts.rest_none (frames_dead (sound.dead_of_free member))
  rw [← rest] at holds
  refine sound.replace holds (fun f other => ?_) low bound
  rw [rest] at other
  exact sound.kept_of_free pages f other

theorem setupkvm :
    wp setupkvm m
      (fun r m' => (∀ d, r = some d → Sound (update size d (some 0)) m') ∧
        (r = none → Sound size m' ∧ ∀ f, f ∈ m'.free ↔ f ∈ m.free))
      fun _ => False := by
  refine wp_mono (setupkvm_spec sound.parts_others fun i => kernelTable_lt) ?_ fun _ => id
  rintro r m' ⟨pages, ends⟩
  rcases ends with ⟨rfl, parts, _⟩ | ⟨d, rfl, _, holds, kernel, _⟩
  · exact ⟨nofun, fun _ => ⟨sound.idle parts.swap (sound.kept_of_free pages), sound.free_same parts⟩⟩
  · refine ⟨fun d' same => ?_, nofun⟩
    cases same
    refine sound.add holds pages (by decide) fun v low present => ?_
    rw [kernel.pte, kernelPte_low low] at present
    exact absurd present not_present_zero

theorem copyuvm (live : size d = some sz) :
    wp (copyuvm d sz) m
      (fun r m' => (∀ child, r = some child → Sound (update size child (some sz)) m') ∧
        (r = none → Sound size m' ∧ (∀ f, f ∈ m'.free ↔ f ∈ m.free) ∧ m'.space d = m.space d))
      fun _ => ∃ v, 4096 * v < sz ∧ ¬Present ((m.space d).pte v) := by
  have holds := sound.holds live
  have low := sound.low d sz live
  have apart : ∀ f ∈ holdings ((m.space d).frame d), f ∉ m.free :=
    fun f owned free => holds.parts.freeOwned f free owned
  simp only [kernbase] at low
  refine wp_mono (copyuvm_spec sound.parts_others apart (by omega) (fun i => kernelTable_lt) fun v below =>
    Finset.mem_range.2 (by omega)) ?_ fun _ => id
  rintro r m' ⟨pages, ends⟩
  rcases ends with ⟨rfl, parts, _⟩ | ⟨child, start, rfl, _, _, kernel, after, _, filled, _⟩
  · refine ⟨fun _ wrong => (by cases wrong), fun _ => ⟨sound.idle parts.swap (sound.kept_of_free pages),
      sound.free_same parts, ?_⟩⟩
    exact space_kept fun f owned => pages f (apart f owned)
  · refine ⟨fun child' same => ?_, fun wrong => by cases wrong⟩
    cases same
    refine sound.add after pages low fun v user present => ?_
    by_contra above
    rw [filled.outside v (.inr (Nat.not_lt.1 above)), kernel.pte, kernelPte_low user] at present
    exact not_present_zero present

theorem freevm (live : size d = some sz) :
    wp (freevm d) m
      (fun _ m' => Sound (update size d none) m' ∧ ∀ f, f ∈ m'.free ↔ f ∈ m.free ∨ f ∈ holdings ((m.space d).frame d))
      fun _ => False := by
  have holds := sound.holds live
  refine wp_mono (freevm_spec holds) ?_ fun _ => id
  rintro _ m' ⟨parts, pages, _⟩
  refine ⟨sound.remove parts fun f other => pages f fun mine => holds.parts.apart f other mine, fun f => ?_⟩
  rw [parts.mem_free_iff, holds.parts.cover]
  constructor
  · rintro ⟨free | other | mine, notOther, _⟩
    · exact .inl free
    · exact absurd other notOther
    · exact .inr mine
  · rintro (free | mine)
    · exact ⟨.inl free, holds.parts.freeOthers f free, Set.notMem_empty f⟩
    · exact ⟨.inr (.inr mine), fun other => holds.parts.apart f other mine, Set.notMem_empty f⟩

end

/-- What one call preserves. -/
theorem step {e : Event} (sound : Sound M.size M.mem) (step : Step M e M') : Sound M'.size M'.mem ∧ e.Tells M M' := by
  cases step with
  | setup ran => exact ⟨(wp_ok sound.setupkvm ran).1 _ rfl, trivial⟩
  | setupFails ran => exact (wp_ok sound.setupkvm ran).2 rfl
  | @grow d sz newsz r m live ran =>
    obtain ⟨after, tells⟩ := wp_ok (sound.allocuvm live Nat.le.refl newsz fun _ => rfl) ran
    refine ⟨after, ?_⟩
    cases r with
    | zero => exact tells rfl
    | succ r => trivial
  | @stack d sz top r m live behind ran =>
    obtain ⟨after, tells⟩ := wp_ok (sound.stack live behind) ran
    refine ⟨after, ?_⟩
    cases r with
    | zero => exact tells rfl
    | succ r => trivial
  | shrink live ran =>
    have after := wp_ok (sound.deallocuvm live _) ran
    exact ⟨after, trivial⟩
  | copy live ran => exact ⟨(wp_ok (sound.copyuvm live) ran).1 _ rfl, trivial⟩
  | copyFails live ran => exact (wp_ok (sound.copyuvm live) ran).2 rfl
  | free live ran =>
    have after := wp_ok (sound.freevm live) ran
    exact after

/-- What a sequence of calls preserves. -/
theorem run (sound : Sound M.size M.mem) (run : Relation.ReflTransGen (fun M M' => ∃ e, Step M e M') M M') :
    Sound M'.size M'.mem := by
  induction run with
  | refl => exact sound
  | tail _ step before =>
    obtain ⟨e, step⟩ := step
    exact (before.step step).1

/-- Before the first call all pages are free. -/
theorem start (dead : ∀ d, M.size d = none) (nodup : M.mem.free.Nodup) (free : ∀ f, f ∈ M.mem.free ↔ f ∈ pool) :
    Sound M.size M.mem := by
  have empty : uncurry (frames M.size M.mem) = fun _ => none := by
    funext ⟨d, x⟩
    rw [uncurry_apply_pair, frames_dead (dead d)]
  refine ⟨empty ▸ injects_none, ?_, fun d sz live => ?_, fun d sz live => ?_⟩
  · rw [empty, holdings_none]
    refine ⟨nodup, fun f => ?_, fun f _ => Set.notMem_empty f, fun f _ => Set.notMem_empty f,
      fun f _ => Set.notMem_empty f⟩
    rw [free]
    simp only [Set.mem_empty_iff_false, or_false]
  · cases (dead d).symm.trans live
  · cases (dead d).symm.trans live

end Sound

/-- Where each page is: free, or in one place of one live directory. A place is a directory with
`inl none` for its own page, `inl (some i)` for a page table and `inr v` for a user page. -/
def InOnePlace (M : Machine) (f : Nat) : Prop :=
  (f ∈ M.mem.free ∧ ∀ x, uncurry (frames M.size M.mem) x ≠ some f) ∨
    (f ∉ M.mem.free ∧ ∃! x, uncurry (frames M.size M.mem) x = some f)

/-- From the start on, whatever `kalloc` returns, every page is in one place after each call, the
free list has no page twice, failures have no effect and `freevm` frees the pages of its
directory. The calls end, except that `copyuvm` panics if a page is missing below the size. -/
theorem pages_conserved {start M : Machine} (dead : ∀ d, start.size d = none) (nodup : start.mem.free.Nodup)
    (free : ∀ f, f ∈ start.mem.free ↔ f ∈ pool) (run : Relation.ReflTransGen (fun M M' => ∃ e, Step M e M') start M) :
    M.mem.free.Nodup ∧ (∀ f ∈ pool, InOnePlace M f) ∧
    (∀ x f, Function.uncurry (frames M.size M.mem) x = some f → f ∈ pool) ∧ (∀ e M', Step M e M' → e.Tells M M') ∧
    (∃ r m, setupkvm M.mem = .ok (r, m)) ∧
    ∀ d sz, M.size d = some sz →
      (∀ newsz, ∃ r m, allocuvm d sz newsz M.mem = .ok (r, m)) ∧
      (∀ top, top = pgroundup sz + 2 * pgsize → ∃ r m, allocuvm d (pgroundup sz) top M.mem = .ok (r, m)) ∧
      (∀ newsz, ∃ r m, deallocuvm d sz newsz M.mem = .ok (r, m)) ∧
      ((∀ v, 4096 * v < sz → Present ((M.mem.space d).pte v)) → ∃ r m, copyuvm d sz M.mem = .ok (r, m)) ∧
      ∃ m, freevm d M.mem = .ok ((), m) := by
  have sound := (Sound.start dead nodup free).run run
  refine ⟨sound.parts.nodup, fun f inside => ?_, fun x f held => sound.parts.owned_pool ⟨x, held⟩,
    fun e M' step => (sound.step step).2, ?_, fun d sz live => ⟨fun newsz => ?_, fun top behind => ?_,
      fun newsz => ?_, fun present => ?_, ?_⟩⟩
  · rcases (sound.parts.cover f).1 inside with free | none | owned
    · exact Or.inl ⟨free, fun x held => sound.parts.freeOwned f free ⟨x, held⟩⟩
    · exact none.elim
    · obtain ⟨x, held⟩ := owned
      exact Or.inr ⟨fun free => sound.parts.freeOwned f free ⟨x, held⟩, x, held,
        fun y there => sound.injects there held⟩
  · obtain ⟨r, m, ended, _⟩ := wp_ends sound.setupkvm
    exact ⟨r, m, ended⟩
  · obtain ⟨r, m, ended, _⟩ := wp_ends (sound.allocuvm live (Nat.le_refl sz) newsz fun _ => rfl)
    exact ⟨r, m, ended⟩
  · obtain ⟨r, m, ended, _⟩ := wp_ends (sound.stack live behind)
    exact ⟨r, m, ended⟩
  · obtain ⟨r, m, ended, _⟩ := wp_ends (sound.deallocuvm live newsz)
    exact ⟨r, m, ended⟩
  · obtain ⟨r, m, ended, _⟩ := wp_ends (wp_mono (sound.copyuvm live) (fun _ _ => id) fun _ ⟨v, below, absent⟩ =>
      absent (present v below))
    exact ⟨r, m, ended⟩
  · obtain ⟨_, m, ended, _⟩ := wp_ends (sound.freevm live)
    exact ⟨m, ended⟩

end Calls

/-- The first process gets a page and a child, and every page is in one place. -/
theorem pages_conserved_first_child : ∃ (_ : KernelImage) (M₁ M₂ M₃ : Machine) (d child : Nat),
    Step ⟨fresh, fun _ => none⟩ (.setup (some d)) M₁ ∧ Step M₁ (.grow d 4096 4096) M₂ ∧
    Step M₂ (.copy d (some child)) M₃ ∧ ∀ f ∈ pool, InOnePlace M₃ f := by
  refine ⟨smallImage, ?_⟩
  let image := smallImage
  obtain ⟨d, m₁, m, others, built, grown, holds, sized, stocked⟩ := exists_onePage
  have present : ∀ v, 4096 * v < 4096 → Present ((m.space d).pte v) := fun v below => (sized v (by omega)).2 below
  obtain ⟨_, m₃, copied, _, ⟨_, _, few⟩ | ⟨child, _, rfl, _⟩⟩ := copyuvm_complete holds.parts.nodup
    (fun f => holds.parts.free_pool) (fun f owned free => holds.parts.freeOwned f free owned) (by decide) present
  · exact absurd (stocked.ample.mono (by decide)) few
  let M₁ : Machine := ⟨m₁, update (fun _ => none) d (some 0)⟩
  let M₂ : Machine := ⟨m, update M₁.size d (some 4096)⟩
  have step₁ : Step ⟨fresh, fun _ => none⟩ (.setup (some d)) M₁ := .setup built
  have step₂ : Step M₁ (.grow d 4096 4096) M₂ := .grow (update_self d (some 0) fun _ => none) grown
  have step₃ : Step M₂ (.copy d (some child)) ⟨m₃, update M₂.size child (some 4096)⟩ :=
    .copy (update_self d (some 4096) M₁.size) copied
  have run : Relation.ReflTransGen (fun M M' => ∃ e, Step M e M') ⟨fresh, fun _ => none⟩ M₂ :=
    .tail (.single ⟨_, step₁⟩) ⟨_, step₂⟩
  exact ⟨M₁, M₂, _, d, child, step₁, step₂, step₃,
    (pages_conserved (fun _ => rfl) List.nodup_range' (fun _ => mem_fresh)
    (run.tail ⟨_, step₃⟩)).2.1⟩

end MiniOS.Vm
