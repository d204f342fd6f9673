import MiniOS.Lib.Wp
import MiniOS.Vm.Stock

namespace MiniOS.Vm

open Lib Function

variable {m : Mem} {d : Nat}

theorem tree_link (sp : Space) (d i f : Nat) : (sp.link i f).tree d = update (sp.tree d) (some i) (some f) := by
  funext x
  cases x with
  | none => rfl
  | some k =>
    by_cases here : k = i
    · subst here
      rw [update_self]
      exact update_self ..
    · rw [update_of_ne fun same => here (Option.some.inj same)]
      exact update_of_ne here ..

/-- A page directory: the pages of its page tables are distinct, and `kalloc` hands out
none of them. -/
structure Dir (m : Mem) (d : Nat) : Prop where
  tree : Injects ((m.space d).tree d)
  nodup : m.free.Nodup
  fresh : ∀ f ∈ m.free, f ∉ holdings ((m.space d).tree d)
  small : ∀ f ∈ m.free, f < 2 ^ 20

theorem Dir.parts (dir : Dir m d) :
    Parts {f | f ∈ m.free ∨ f ∈ holdings ((m.space d).tree d)} m.free ∅ (holdings ((m.space d).tree d)) := by
  refine ⟨dir.nodup, fun f => ?_, fun f _ => Set.notMem_empty f, dir.fresh, fun f none => none.elim⟩
  rw [Set.mem_ofPred_eq]
  simp only [Set.mem_empty_iff_false, false_or]

/-- From `m` to `m'`, free pages have become page tables of entries in `P`, and apart from
these only the pages of the directory have changed. -/
structure Extends (d : Nat) (P : Nat → Prop) (new : List Nat) (m m' : Mem) : Prop where
  claims : Acquired ((m.space d).tree d) (fun x => ∃ i, x = some i ∧ P i) new ((m'.space d).tree d)
  free : m.free = new ++ m'.free
  pages : ∀ f, f ∉ holdings ((m.space d).tree d) → f ∉ new → m'.page f = m.page f

namespace Extends

variable {d : Nat} {P : Nat → Prop} {new : List Nat} {m m' : Mem}

theorem refl (d : Nat) (P : Nat → Prop) (m : Mem) : Extends d P [] m m := ⟨.refl, rfl, fun _ _ _ => rfl⟩

theorem trans {more : List Nat} {m'' : Mem} (first : Extends d P new m m') (second : Extends d P more m' m'') :
    Extends d P (new ++ more) m m'' := by
  refine ⟨first.claims.trans second.claims, ?_, fun f outside notNew => ?_⟩
  · rw [first.free, second.free, List.append_assoc]
  · rw [List.mem_append, not_or] at notNew
    rw [second.pages f _ notNew.2, first.pages f outside notNew.1]
    rw [first.claims.mem_holdings_iff]
    exact not_or.2 ⟨outside, notNew.1⟩

theorem mono {Q : Nat → Prop} (grown : Extends d P new m m') (weaker : ∀ i, P i → Q i) : Extends d Q new m m' :=
  ⟨grown.claims.mono fun _ ⟨i, same, allowed⟩ => ⟨i, same, weaker i allowed⟩, grown.free, grown.pages⟩

/-- The directory stays one. -/
theorem dir (grown : Extends d P new m m') (dir : Dir m d) : Dir m' d := by
  have parts := dir.parts
  rw [grown.free] at parts
  obtain ⟨injects, parts⟩ := parts.claims dir.tree grown.claims
  refine ⟨injects, parts.nodup, parts.freeOwned, fun f member => dir.small f ?_⟩
  rw [grown.free]
  exact List.mem_append_right _ member

end Extends

section Walk

variable {m : Mem} {d va : Nat} {i t : Nat}

theorem kalloc_spec (m : Mem) :
    wp kalloc m (fun r m' => (r = none ∧ m' = m.refuse ∧ ¬m.Ample 1) ∨
        ∃ f rest, r = some f ∧ m.free = f :: rest ∧ m' = m.take rest)
      fun _ => False := by
  unfold kalloc
  refine wp_get_seq ?_
  split
  · rename_i f rest frees
    refine wp_ite (fun _ => ?_) fun refused => ?_
    · exact .inr ⟨f, rest, rfl, frees, rfl⟩
    · exact .inl ⟨rfl, rfl, fun ample => refused (ample.2 0 Nat.one_pos)⟩
  · rename_i empty
    refine .inl ⟨rfl, rfl, fun ample => ?_⟩
    have some := ample.1
    rw [empty] at some
    cases some

theorem pdx_lt (va : Nat) : pdx va < 1024 := Nat.mod_lt _ (by decide)

/-- A table is present exactly if the entry of the directory is. -/
theorem present_of_table (here : (m.space d).table i = some t) :
    Present (entry m.page d i) ∧ frameOf (entry m.page d i) = t := by
  by_cases present : Present (entry m.page d i)
  · rw [table_of_present (table_lt here) present] at here
    exact ⟨present, Option.some.inj here⟩
  · rw [table_of_absent present] at here
    cases here

theorem absent_of_table (bound : i < 1024) (missing : (m.space d).table i = none) : ¬Present (entry m.page d i) := by
  intro present
  rw [table_of_present bound present] at missing
  cases missing

theorem walkpgdir_some (alloc : Bool) (here : (m.space d).table (pdx va) = some t) :
    walkpgdir d va alloc m = .ok (some (t, ptx va), m) := by
  obtain ⟨present, frame⟩ := present_of_table here
  refine wp_eq_ok ?_
  unfold walkpgdir
  refine wp_get_seq ?_
  rw [if_pos present, frame]
  exact ⟨rfl, rfl⟩

theorem walkpgdir_none (missing : (m.space d).table (pdx va) = none) : walkpgdir d va false m = .ok (none, m) := by
  refine wp_eq_ok ?_
  unfold walkpgdir
  refine wp_get_seq ?_
  rw [if_neg (absent_of_table (pdx_lt va) missing), if_pos rfl]
  exact ⟨rfl, rfl⟩

/-- A free page becomes an empty page table. -/
theorem extends_link (dir : Dir m d) {f : Nat} {rest : List Nat} (bound : i < 1024)
    (missing : (m.space d).table i = none) (frees : m.free = f :: rest) :
    let zeroed := (m.take rest).setPage f fun _ => 0
    let linked := zeroed.setPage d (store32 (zeroed.page d) (4 * i) (pteFor f (pteW ||| pteU)))
    linked.space d = (m.space d).link i f ∧ Extends d (· = i) [f] m linked := by
  intro zeroed linked
  have member : f ∈ m.free := by
    rw [frees]
    exact .head _
  have fresh := dir.fresh f member
  have other : f ≠ d := by
    rintro rfl
    exact fresh ⟨none, rfl⟩
  have same : zeroed.space d = m.space d := space_setPage (m := m.take rest) fresh _
  have space : linked.space d = (m.space d).link i f := by
    rw [← same]
    exact space_link (same ▸ dir.tree) bound (same ▸ missing) other (dir.small f member) fun j => entry_zero f j
  refine ⟨space, ?_, frees, fun g outside notNew => ?_⟩
  · rw [space, tree_link]
    exact Acquired.refl.claim f ⟨i, rfl, rfl⟩ missing
  · rw [List.mem_singleton] at notNew
    have notDir : g ≠ d := by
      rintro rfl
      exact outside ⟨none, rfl⟩
    exact (update_of_ne notDir ..).trans (update_of_ne notNew ..)

/-- `walkpgdir` with `alloc` finds the page table, or adds an empty one. -/
theorem walkpgdir_alloc {T : Finset Nat} (dir : Dir m d) (va : Nat) (needed : pdx va ∈ T) :
    wp (walkpgdir d va true) m
      (fun r m' => (r = none ∧ m' = m.refuse ∧ Unpaid d T 0 m m') ∨
        ∃ t new, r = some (t, ptx va) ∧ (m'.space d).table (pdx va) = some t ∧ Extends d (· = pdx va) new m m' ∧
          (m'.space d).pte = (m.space d).pte ∧ Paid d T 0 m m')
      fun _ => False := by
  cases here : (m.space d).table (pdx va) with
  | some t =>
    rw [wp, walkpgdir_some true here]
    exact .inr ⟨t, [], rfl, here, .refl d _ m, rfl, .same rfl rfl rfl rfl⟩
  | none =>
    unfold walkpgdir
    refine wp_get_seq ?_
    rw [if_neg (absent_of_table (pdx_lt va) here), if_neg (by decide)]
    refine wp_seq (kalloc_spec m) ?_
    rintro r m' (⟨rfl, rfl, refused⟩ | ⟨f, rest, rfl, frees, rfl⟩)
    · exact .inl ⟨rfl, rfl, .table needed here refused⟩
    · obtain ⟨space, grown⟩ := extends_link dir (pdx_lt va) here frees
      refine wp_modify_seq (wp_modify_seq (.inr ⟨f, [f], rfl, ?_⟩))
      rw [show BitVec.ofNat 32 (4096 * f) ||| pteP ||| pteW ||| pteU = pteFor f (pteW ||| pteU) from ?_]
      · refine ⟨?_, grown, ?_, .table needed here frees (congrArg Space.table space) rfl rfl rfl⟩
        · rw [space]
          exact update_self ..
        · rw [space]
          rfl
      · rw [pteFor, BitVec.or_assoc, BitVec.or_assoc, BitVec.or_assoc]
        rfl

end Walk

section Range

variable {m : Mem} {d first p n : Nat} {perm : BitVec 32} {pte : Nat → BitVec 32} {v k : Nat}

/-- `k` pages from `first` on, mapped to the pages from `p` on. -/
def mapped (pte : Nat → BitVec 32) (first p k : Nat) (perm : BitVec 32) (v : Nat) : BitVec 32 :=
  if first ≤ v ∧ v < first + k then pteFor (p + (v - first)) perm else pte v

theorem mapped_of_mem {f : Nat} (above : first ≤ v) (below : v < first + k) (frame : p + (v - first) = f) :
    mapped pte first p k perm v = pteFor f perm := by
  rw [mapped, if_pos ⟨above, below⟩, frame]

theorem mapped_of_not (outside : v < first ∨ first + k ≤ v) : mapped pte first p k perm v = pte v :=
  if_neg (by omega)

theorem mapped_zero (pte : Nat → BitVec 32) (first p : Nat) (perm : BitVec 32) : mapped pte first p 0 perm = pte := by
  funext v
  exact if_neg (by omega)

theorem mapped_succ (pte : Nat → BitVec 32) (first p k : Nat) (perm : BitVec 32) :
    mapped (update pte first (pteFor p perm)) (first + 1) (p + 1) k perm = mapped pte first p (k + 1) perm := by
  funext v
  simp only [mapped]
  by_cases here : v = first
  · subst here
    rw [if_neg (by omega), if_pos (by omega), update_self, Nat.sub_self, Nat.add_zero]
  · rw [update_of_ne here]
    by_cases inside : first + 1 ≤ v ∧ v < first + 1 + k
    · rw [if_pos inside, if_pos (by omega), show p + 1 + (v - (first + 1)) = p + (v - first) by omega]
    · rw [if_neg inside, if_neg (by omega)]

/-- What `mappages` does to the directory: page tables are added where the range needs
them, and `k` pages of the range are mapped. -/
structure Mapping (d first p n : Nat) (perm : BitVec 32) (k : Nat) (new : List Nat) (m m' : Mem) : Prop where
  grown : Extends d (fun i => ∃ v, first ≤ v ∧ v < first + n ∧ v / 1024 = i) new m m'
  pte : (m'.space d).pte = mapped (m.space d).pte first p k perm

theorem pdx_page (small : first < 2 ^ 20) : pdx (4096 * first) = first / 1024 := by
  rw [pdx]
  omega

theorem ptx_page (first : Nat) : ptx (4096 * first) = first % 1024 := by
  rw [ptx]
  omega

theorem tree_set (sp : Space) (d n : Nat) (w : BitVec 32) : (sp.set n w).tree d = sp.tree d := by
  funext x
  cases x <;> rfl

/-- Writing a page table changes no other page. -/
theorem extends_set (dir : Dir m d) {i t j : Nat} (here : (m.space d).table i = some t)
    (bound : j < 1024) (P : Nat → Prop) (w : BitVec 32) :
    Extends d P [] m (m.setPage t (store32 (m.page t) (4 * j) w)) := by
  refine ⟨?_, rfl, fun f outside _ => update_of_ne ?_ ..⟩
  · rw [space_set dir.tree here bound, tree_set]
    exact .refl
  · rintro rfl
    exact outside ⟨some i, here⟩

theorem Mapping.none (d first p n : Nat) (perm : BitVec 32) (m : Mem) : Mapping d first p n perm 0 [] m m.refuse :=
  ⟨⟨.refl, rfl, fun _ _ _ => rfl⟩, (mapped_zero ..).symm⟩

/-- The first page of the range is mapped, and then `k` of the others. -/
theorem Mapping.cons {new more : List Nat} {m' m'' : Mem} (head : Extends d (· = first / 1024) new m m')
    (set : (m'.space d).pte = update (m.space d).pte first (pteFor p perm))
    (rest : Mapping d (first + 1) (p + 1) n perm k more m' m'') :
    Mapping d first p (n + 1) perm (k + 1) (new ++ more) m m'' := by
  refine ⟨(head.mono ?_).trans (rest.grown.mono ?_), ?_⟩
  · rintro i rfl
    exact ⟨first, Nat.le_refl _, by omega, rfl⟩
  · rintro i ⟨v, above, below, rfl⟩
    exact ⟨v, by omega, by omega, rfl⟩
  · rw [rest.pte, set, mapped_succ]

theorem mappagesFrom_spec {T : Finset Nat} (last : Nat) : ∀ (rounds n first p : Nat) (m : Mem), n < rounds →
    last = 4096 * (first + n) → first + n < 2 ^ 20 → p + n < 2 ^ 20 → Dir m d →
    (∀ v, first ≤ v → v ≤ first + n → ¬Present ((m.space d).pte v) ∧ v / 1024 ∈ T) →
    wp (mappagesFrom d last perm rounds (4096 * first) (4096 * p)) m
      (fun r m' => ∃ k new, Mapping d first p (n + 1) perm k new m m' ∧
        ((r = 0 ∧ k = n + 1 ∧ Paid d T 0 m m') ∨ (r = -1 ∧ k ≤ n ∧ Unpaid d T 0 m m')))
      fun _ => False := by
  intro rounds
  induction rounds with
  | zero => exact fun n _ _ _ enough => absurd enough (Nat.not_lt_zero n)
  | succ rounds ih =>
    intro n first p m enough atLast fits room dir absent
    have index : pdx (4096 * first) = first / 1024 := pdx_page (by omega)
    obtain ⟨vacant, needed⟩ := absent first Nat.le.refl (Nat.le_add_right ..)
    unfold mappagesFrom
    refine wp_seq (walkpgdir_alloc dir _ (index ▸ needed)) ?_
    rw [index, ptx_page]
    rintro r m' (⟨rfl, rfl, refused⟩ | ⟨t, new, rfl, here, grown, ptes, paid⟩)
    · exact ⟨0, [], .none .., .inr ⟨rfl, Nat.zero_le n, refused⟩⟩
    have dir' := grown.dir dir
    have old : entry m'.page t (first % 1024) = (m.space d).pte first := by rw [← ptes, pte_some here]
    have bound : first % 1024 < 1024 := Nat.mod_lt _ (by decide)
    refine wp_get_seq ?_
    rw [old, if_neg vacant]
    refine wp_modify_seq ?_
    let m₁ := m'.setPage t (store32 (m'.page t) (4 * (first % 1024)) (pteFor p perm))
    have head : Extends d (· = first / 1024) new m m₁ := by
      have both := grown.trans (extends_set dir' here bound _ (pteFor p perm))
      rwa [List.append_nil] at both
    have space := space_set dir'.tree here bound (pteFor p perm)
    have paid' : Paid d T 0 m' m₁ := .same (congrArg Space.table space :) rfl rfl rfl
    have paid₁ : Paid d T 0 m m₁ := paid.trans paid'
    have set : (m₁.space d).pte = update (m.space d).pte first (pteFor p perm) := by
      rw [Nat.div_add_mod] at space
      rw [space, ← ptes]
      rfl
    refine wp_ite (fun atEnd => ?_) fun before => ?_
    · obtain rfl : n = 0 := by omega
      refine ⟨1, new, ?_, .inl ⟨rfl, rfl, paid₁⟩⟩
      have only := Mapping.cons (n := 0) (k := 0) head set ⟨.refl d _ m₁, (mapped_zero ..).symm⟩
      rwa [List.append_nil] at only
    · obtain ⟨n, rfl⟩ : ∃ n', n = n' + 1 := ⟨n - 1, by omega⟩
      have next : (4096 * first + pgsize) % 2 ^ 32 = 4096 * (first + 1) := by
        simp only [pgsize]
        omega
      have page : (4096 * p + pgsize) % 2 ^ 32 = 4096 * (p + 1) := by
        simp only [pgsize]
        omega
      rw [next, page]
      refine wp_mono (ih n (first + 1) (p + 1) m₁ (by omega) (by omega) (by omega) (by omega) (head.dir dir) ?_) ?_
        fun _ => id
      · intro v above below
        rw [set, update_of_ne (by omega)]
        exact absent v (by omega) (by omega)
      · rintro r m₂ ⟨k, more, rest, ends⟩
        refine ⟨k + 1, new ++ more, rest.cons head set, ?_⟩
        rcases ends with ⟨rfl, rfl, more⟩ | ⟨rfl, short, refused⟩
        · exact .inl ⟨rfl, rfl, paid₁.trans more⟩
        · exact .inr ⟨rfl, by omega, paid₁.unpaid refused⟩

/-- `walkpgdir` finds the entry of a page that is present. -/
theorem walk_present (present : Present ((m.space d).pte v)) (small : v < 2 ^ 20) :
    ∃ t, (m.space d).table (pdx (4096 * v)) = some t ∧ entry m.page t (ptx (4096 * v)) = (m.space d).pte v := by
  rw [pdx_page small, ptx_page]
  cases here : (m.space d).table (v / 1024) with
  | none =>
    rw [pte_none here] at present
    exact absurd present not_present_zero
  | some t => exact ⟨t, rfl, (pte_some here).symm⟩

/-- `mappages` on a range of which no page is present and whose page tables are in `T`. -/
theorem mappages_spec {T : Finset Nat} (dir : Dir m d) (va size p : Nat) (perm : BitVec 32) (positive : 0 < size)
    (bound : va + size ≤ 2 ^ 32) (room : 4096 * p + 4096 * ((va + size - 1) / 4096 - va / 4096 + 1) ≤ 2 ^ 32)
    (absent : ∀ v, va / 4096 ≤ v → v ≤ (va + size - 1) / 4096 → ¬Present ((m.space d).pte v) ∧ v / 1024 ∈ T) :
    wp (mappages d va size (4096 * p) perm) m
      (fun r m' => ∃ k new, Mapping d (va / 4096) p ((va + size - 1) / 4096 - va / 4096 + 1) perm k new m m' ∧
        ((r = 0 ∧ k = (va + size - 1) / 4096 - va / 4096 + 1 ∧ Paid d T 0 m m') ∨
          (r = -1 ∧ k ≤ (va + size - 1) / 4096 - va / 4096 ∧ Unpaid d T 0 m m')))
      fun _ => False := by
  have last : pgrounddown ((va + size + (2 ^ 32 - 1)) % 2 ^ 32) = 4096 * ((va + size - 1) / 4096) := by
    rw [pgrounddown]
    omega
  have start : pgrounddown va = 4096 * (va / 4096) := by
    rw [pgrounddown]
    omega
  have order : va / 4096 ≤ (va + size - 1) / 4096 := Nat.div_le_div_right (by omega)
  unfold mappages
  rw [last, start]
  refine mappagesFrom_spec _ npages _ _ _ m ?_ ?_ ?_ ?_ dir ?_
  · simp only [npages]
    omega
  · omega
  · omega
  · omega
  · intro v above below
    exact absent v above (by omega)

end Range

/-- A directory without page tables shows nothing. -/
theorem space_zero (zero : m.page d = fun _ => 0) : m.space d = ⟨fun _ => none, fun _ => 0⟩ := by
  have absent : ∀ i, (m.space d).table i = none := by
    intro i
    refine table_of_absent ?_
    have none : entry m.page d i = 0 := by
      rw [entry, zero, load32]
      decide
    rw [none]
    exact not_present_zero
  have ptes : ∀ n, (m.space d).pte n = 0 := fun n => pte_none (absent _)
  rw [Mem.space] at absent ptes ⊢
  rw [← funext absent, ← funext ptes]

theorem Dir.of_zero (zero : m.page d = fun _ => 0) (nodup : m.free.Nodup) (fresh : d ∉ m.free)
    (small : ∀ f ∈ m.free, f < 2 ^ 20) : Dir m d := by
  have only : ∀ {x f}, (m.space d).tree d x = some f → x = none ∧ f = d := by
    intro x f here
    rw [space_zero zero] at here
    cases x with
    | none => exact ⟨rfl, (Option.some.inj here).symm⟩
    | some i => cases here
  refine ⟨fun x y f here there => ?_, nodup, ?_, small⟩
  · rw [(only here).1, (only there).1]
  · rintro f member ⟨x, here⟩
    exact fresh ((only here).2 ▸ member)

/-- The physical address and the flags that a virtual page translates to. -/
def Space.translate (sp : Space) (v : Nat) : Option (Nat × BitVec 32) :=
  if Present (sp.pte v) then some (4096 * frameOf (sp.pte v), flagsOf (sp.pte v)) else none

/-- `mappages` ends and maps the whole range or, if it returns -1, the first pages of it. It returns
-1 only if a `kalloc` returned 0. Every other page has the entry that it had. -/
theorem mappages_updates_range (m : Mem) (d va size pa : Nat) (perm : BitVec 32) (dir : Dir m d) (positive : 0 < size)
    (bound : va + size ≤ 2 ^ 32) (aligned : pa % pgsize = 0)
    (room : pa + (pgrounddown (va + size - 1) + pgsize - pgrounddown va) ≤ 2 ^ 32)
    (absent : ∀ v, va / pgsize ≤ v → v ≤ (va + size - 1) / pgsize → ¬Present ((m.space d).pte v)) :
    ∃ r m' k, mappages d va size pa perm m = .ok (r, m') ∧
      (r = 0 ∧ k = (va + size - 1) / pgsize - va / pgsize + 1 ∧ m'.missed = m.missed ∨
        r = -1 ∧ k < (va + size - 1) / pgsize - va / pgsize + 1 ∧ m.missed < m'.missed) ∧
      (∀ j < k, (m'.space d).pte (va / pgsize + j) = BitVec.ofNat 32 (pa + j * pgsize) ||| perm ||| pteP ∧
        (perm.toNat < 4096 → (m'.space d).translate (va / pgsize + j) = some (pa + j * pgsize, perm ||| pteP))) ∧
      ∀ v, v < va / pgsize ∨ va / pgsize + k ≤ v → (m'.space d).pte v = (m.space d).pte v := by
  simp only [pgsize] at *
  obtain ⟨p, rfl⟩ : ∃ p, pa = 4096 * p := ⟨pa / 4096, by omega⟩
  simp only [pgrounddown] at room
  have order : va / 4096 ≤ (va + size - 1) / 4096 := Nat.div_le_div_right (by omega)
  obtain ⟨r, m', ended, k, new, mapping, ends⟩ :=
    wp_ends (mappages_spec (T := .range 1024) dir va size p perm positive bound (by omega)
      fun v above below => ⟨absent v above below, Finset.mem_range.2 (by omega)⟩)
  have length : k ≤ (va + size - 1) / 4096 - va / 4096 + 1 := by
    rcases ends with ⟨_, all, _⟩ | ⟨_, short, _⟩ <;> omega
  refine ⟨r, m', k, ended, ?_, fun j below => ?_, fun v outside => ?_⟩
  · rcases ends with ⟨rfl, all, paid⟩ | ⟨rfl, short, refused⟩
    · exact Or.inl ⟨rfl, all, paid.missed⟩
    · exact Or.inr ⟨rfl, by omega, refused.missed⟩
  · have value : (m'.space d).pte (va / 4096 + j) = pteFor (p + j) perm := by
      rw [mapping.pte, mapped, if_pos (by omega), Nat.add_sub_cancel_left]
    have address : 4096 * p + j * 4096 = 4096 * (p + j) := by omega
    rw [address]
    refine ⟨value, fun flags => ?_⟩
    rw [Space.translate, value, if_pos (present_pteFor _ _), frameOf_pteFor (by omega) flags,
      flagsOf_pteFor (by omega) flags]
  · rw [mapping.pte, mapped, if_neg (by omega)]

/-- Two pages in an empty directory, on both sides of the border between two page tables. -/
theorem mappages_updates_two_pages :
    ∃ m', mappages 5 0x3FF000 8192 0x3000 pteW ⟨fun _ _ => 0, [7, 8], fun _ => true, 0⟩ = .ok (0, m') ∧
      (m'.space 5).translate 0x3FF = some (0x3000, pteW ||| pteP) ∧
      (m'.space 5).translate 0x400 = some (0x4000, pteW ||| pteP) := by
  have dir : Dir ⟨fun _ _ => 0, [7, 8], fun _ => true, 0⟩ 5 := Dir.of_zero rfl (by decide) (by decide) (by decide)
  obtain ⟨r, m', k, ended, ends, range, _⟩ := mappages_updates_range _ 5 0x3FF000 8192 0x3000 pteW dir (by decide)
    (by decide) (by decide) (by decide) (fun v _ _ => by rw [space_zero rfl]; exact not_present_zero)
  have returned : wp (mappages 5 0x3FF000 8192 0x3000 pteW) ⟨fun _ _ => 0, [7, 8], fun _ => true, 0⟩
    (fun r _ => r = 0)
      fun _ => False := by
    decide +kernel
  have zero := wp_ok returned ended
  subst zero
  obtain ⟨_, rfl, _⟩ | ⟨wrong, _⟩ := ends
  · exact ⟨m', ended, (range 0 (by decide)).2 (by decide), (range 1 (by decide)).2 (by decide)⟩
  · cases wrong

end MiniOS.Vm
