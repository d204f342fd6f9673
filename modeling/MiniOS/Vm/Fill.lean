import MiniOS.Vm.Shrink

namespace MiniOS.Vm

open Lib Function

/-- From `m` to `m'` only free pages and the directory have changed, and page tables have
only been added, at entries in `P`. -/
structure Adds (d : Nat) (P : Nat → Prop) (m m' : Mem) : Prop where
  kept : ∀ i t, (m.space d).table i = some t → (m'.space d).table i = some t
  same : ∀ i, ¬P i → (m'.space d).table i = (m.space d).table i
  tree : ∀ f ∈ holdings ((m'.space d).tree d), f ∈ holdings ((m.space d).tree d) ∨ f ∈ m.free
  free : ∀ f ∈ m'.free, f ∈ m.free
  pages : ∀ f, f ∉ m.free → f ∉ holdings ((m.space d).tree d) → m'.page f = m.page f

namespace Adds

variable {d : Nat} {P : Nat → Prop} {m m' m'' : Mem}

theorem refl (d : Nat) (P : Nat → Prop) (m : Mem) : Adds d P m m :=
  ⟨fun _ _ => id, fun _ _ => rfl, fun _ => .inl, fun _ => id, fun _ _ _ => rfl⟩

theorem trans (first : Adds d P m m') (second : Adds d P m' m'') : Adds d P m m'' := by
  refine ⟨fun i t here => second.kept i t (first.kept i t here),
    fun i other => (second.same i other).trans (first.same i other),
    fun f owned => ?_, fun f member => first.free f (second.free f member), fun f notFree outside => ?_⟩
  · rcases second.tree f owned with owned | member
    · exact first.tree f owned
    · exact .inr (first.free f member)
  · rw [second.pages f (fun member => notFree (first.free f member)), first.pages f notFree outside]
    intro owned
    rcases first.tree f owned with owned | member
    · exact outside owned
    · exact notFree member

theorem refuse (d : Nat) (P : Nat → Prop) (m : Mem) : Adds d P m m.refuse :=
  ⟨fun _ _ => id, fun _ _ => rfl, fun _ => .inl, fun _ => id, fun _ _ _ => rfl⟩

theorem mono {Q : Nat → Prop} (adds : Adds d P m m') (weaker : ∀ i, P i → Q i) : Adds d Q m m' :=
  ⟨adds.kept, fun i other => adds.same i fun allowed => other (weaker i allowed), adds.tree, adds.free, adds.pages⟩

/-- A page that `kalloc` hands out is filled. -/
theorem fill [KernelImage] {others : Set Nat} {f : Nat} {rest : List Nat} (P : Nat → Prop) (holds : Holds m others d)
    (frees : m.free = f :: rest) (p : Page) : Adds d P m ((m.take rest).setPage f p) := by
  have member : f ∈ m.free := by
    rw [frees]
    exact .head _
  have space : ((m.take rest).setPage f p).space d = m.space d :=
    space_setPage (m := m.take rest) (holds.dir.fresh f member) p
  refine ⟨fun i t here => ?_, fun i _ => ?_, fun g owned => .inl ?_, fun g left => ?_, fun g notFree _ => ?_⟩
  · rwa [space]
  · rw [space]
  · rwa [space] at owned
  · rw [frees]
    exact .tail f left
  · refine update_of_ne ?_ ..
    rintro rfl
    exact notFree member

end Adds

theorem Extends.adds {d : Nat} {P : Nat → Prop} {new : List Nat} {m m' : Mem} (grown : Extends d P new m m') :
    Adds d P m m' := by
  refine ⟨fun i t here => ?_, fun i other => ?_, fun f owned => ?_, fun f member => ?_, fun f notFree outside => ?_⟩
  · exact grown.claims.kept (x := some i) here
  · refine grown.claims.same (x := some i) ?_
    rintro ⟨j, same, allowed⟩
    cases same
    exact other allowed
  · refine (grown.claims.mem_holdings_iff.1 owned).imp id fun member => ?_
    rw [grown.free]
    exact List.mem_append_left _ member
  · rw [grown.free]
    exact List.mem_append_right _ member
  · refine grown.pages f outside fun member => notFree ?_
    rw [grown.free]
    exact List.mem_append_left _ member

theorem mapped_one (pte : Nat → BitVec 32) (v f : Nat) (perm : BitVec 32) :
    mapped pte v f 1 perm = update pte v (pteFor f perm) := by
  rw [← mapped_succ, mapped_zero]

section MapUser

variable [KernelImage] {m : Mem} {others : Set Nat} {d f v : Nat} {perm : BitVec 32}
  {rest : List Nat} {T : Finset Nat}

/-- `mappages` of one user page that was handed out. -/
theorem mapUser_spec (holds : Holds m (insert f others) d) (outside : f ∉ others) (low : v < 2 ^ 19)
    (absent : ¬Present ((m.space d).pte v)) (flags : perm.toNat < 4096) (needed : v / 1024 ∈ T) :
    wp (mappages d (4096 * v) pgsize (4096 * f) perm) m
      (fun r m' => Adds d (· = v / 1024) m m' ∧
        ((r = 0 ∧ Holds m' others d ∧ (m'.space d).pte = update (m.space d).pte v (pteFor f perm) ∧ Paid d T 0 m m') ∨
          (r = -1 ∧ Holds m' (insert f others) d ∧ (m'.space d).pte = (m.space d).pte ∧ Unpaid d T 0 m m')))
      fun _ => False := by
  have small : f < 2 ^ 20 := pool_lt ((holds.parts.cover f).2 (.inr (.inl (Set.mem_insert f others))))
  have first : 4096 * v / 4096 = v := by omega
  have last : (4096 * v + pgsize - 1) / 4096 = v := by
    simp only [pgsize]
    omega
  have range : ∀ u, 4096 * v / 4096 ≤ u → u ≤ (4096 * v + pgsize - 1) / 4096 →
      ¬Present ((m.space d).pte u) ∧ u / 1024 ∈ T := by
    rw [first, last]
    intro u above below
    rw [show u = v by omega]
    exact ⟨absent, needed⟩
  have spec := mappages_spec holds.dir (4096 * v) pgsize f perm (by decide) (by simp only [pgsize]; omega)
    (by rw [first, last]; omega) range
  rw [first, last, Nat.sub_self] at spec
  refine wp_mono spec ?_ fun _ => id
  rintro r m' ⟨k, new, mapping, ends⟩
  have adds : Adds d (· = v / 1024) m m' := by
    refine Extends.adds (mapping.grown.mono ?_)
    rintro i ⟨u, above, below, rfl⟩
    rw [show u = v by omega]
  refine ⟨adds, ?_⟩
  rcases ends with ⟨rfl, rfl, paid⟩ | ⟨rfl, short, refused⟩
  · have pte := mapping.pte
    rw [Nat.zero_add, mapped_one] at pte
    refine .inl ⟨rfl, holds.map outside mapping.grown (Space.user_of_absent absent) ?_, pte, paid⟩
    have user := Space.user_set (m.space d) v (pteFor f perm)
    rw [if_pos ⟨low, present_pteFor _ _⟩, frameOf_pteFor small flags] at user
    rw [← user]
    funext u
    exact Space.user_congr (congrFun pte u)
  · obtain rfl : k = 0 := by omega
    have pte := mapping.pte
    rw [mapped_zero] at pte
    refine .inr ⟨rfl, holds.grow mapping.grown ?_, pte, refused⟩
    funext u
    exact Space.user_congr (congrFun pte u)

theorem Holds.fill {f : Nat} (holds : Holds m others d) (frees : m.free = f :: rest) (p : Page) :
    Holds ((m.take rest).setPage f p) (insert f others) d := by
  have taken := holds.take frees
  exact taken.congr (space_setPage (taken.not_tree (Set.mem_insert f others)) p) rfl

/-- A page from `kalloc` is filled and mapped. If `mappages` fails, the page is still in hand. -/
theorem newPage_spec (holds : Holds m others d) (frees : m.free = f :: rest) (p : Page) (low : v < 2 ^ 19)
    (absent : ¬Present ((m.space d).pte v)) (flags : perm.toNat < 4096) (needed : v / 1024 ∈ T) :
    wp (mappages d (4096 * v) pgsize (4096 * f) perm) ((m.take rest).setPage f p)
      (fun r m' => Adds d (· = v / 1024) m m' ∧
        ((r = 0 ∧ Holds m' others d ∧ (m'.space d).pte = update (m.space d).pte v (pteFor f perm) ∧ m'.page f = p ∧
            Paid d T 1 m m') ∨
          (r = -1 ∧ Holds m' (insert f others) d ∧ (m'.space d).pte = (m.space d).pte ∧ Unpaid d T 1 m m')))
      fun _ => False := by
  have free : f ∈ m.free := by
    rw [frees]
    exact .head _
  have holds₁ := holds.fill frees p
  have same : ((m.take rest).setPage f p).space d = m.space d :=
    space_setPage (m := m.take rest) (holds.dir.fresh f free) p
  have taken : Paid d T 1 m ((m.take rest).setPage f p) := .page frees p same
  refine wp_mono (mapUser_spec holds₁ (holds.parts.freeOthers f free) low (same ▸ absent) flags needed) ?_ fun _ => id
  rintro r m' ⟨adds, ends⟩
  refine ⟨(Adds.fill _ holds frees p).trans adds, ?_⟩
  rw [same] at ends
  rcases ends with ⟨rfl, holds', pte, paid⟩ | ⟨rfl, holds', pte, refused⟩
  · refine .inl ⟨rfl, holds', pte, ?_, taken.trans paid⟩
    rw [adds.pages f]
    · exact update_self ..
    · exact fun left => holds₁.parts.freeOthers f left (Set.mem_insert f _)
    · exact holds₁.not_tree (Set.mem_insert f _)
  · exact .inr ⟨rfl, holds', pte, taken.unpaid refused⟩

end MapUser

/-- The pages from `lo` on that start below the address `hi` are mapped to pages that were
free, with the given flags and contents. -/
structure Filled (d lo hi : Nat) (perm : Nat → BitVec 32) (content : Nat → Page) (m m' : Mem) : Prop where
  inside : ∀ v, lo ≤ v → 4096 * v < hi → ∃ f ∈ m.free, (m'.space d).pte v = pteFor f (perm v) ∧ m'.page f = content v
  outside : ∀ v, v < lo ∨ hi ≤ 4096 * v → (m'.space d).pte v = (m.space d).pte v

namespace Filled

variable {d lo : Nat} {perm : Nat → BitVec 32} {content : Nat → Page} {start m m' : Mem} {hi u : Nat} {P : Nat → Prop}

theorem congr {hi' : Nat} (filled : Filled d lo hi perm content start m)
    (same : ∀ v, lo ≤ v → (4096 * v < hi ↔ 4096 * v < hi')) : Filled d lo hi' perm content start m := by
  refine ⟨fun v above below => filled.inside v above ((same v above).2 below), fun v other => filled.outside v ?_⟩
  rcases Nat.lt_or_ge v lo with low | above
  · exact .inl low
  · have iff := same v above
    exact .inr (by omega)

theorem none (d lo : Nat) (perm : Nat → BitVec 32) (content : Nat → Page) (m : Mem) :
    Filled d lo (4096 * lo) perm content m m :=
  ⟨fun v above below => by omega, fun _ _ => rfl⟩

variable [KernelImage] {others others' : Set Nat} {v : Nat}

/-- The frame of a page that was filled. -/
theorem user (filled : Filled d lo hi perm content start m) (before : Holds start others d)
    (flags : ∀ v, (perm v).toNat < 4096) (above : lo ≤ u) (below : 4096 * u < hi) (low : u < 2 ^ 19) :
    ∃ f ∈ start.free, (m.space d).pte u = pteFor f (perm u) ∧ (m.space d).user u = some f ∧ m.page f = content u := by
  obtain ⟨f, member, value, page⟩ := filled.inside u above below
  refine ⟨f, member, value, ?_, page⟩
  rw [Space.user_of_present low (value ▸ present_pteFor _ _), value,
    frameOf_pteFor (before.dir.small f member) (flags u)]

section

variable (filled : Filled d lo (4096 * v) perm content start m)
include filled

/-- The pages that were filled before keep their entries and their contents. -/
theorem keep (before : Holds start others d)
    (holds : Holds m others d) (flags : ∀ v, (perm v).toNat < 4096) (low : v ≤ 2 ^ 19) (adds : Adds d P m m')
    (pte : ∀ u, u ≠ v → (m'.space d).pte u = (m.space d).pte u) (above : lo ≤ u) (below : u < v) :
    ∃ f ∈ start.free, (m'.space d).pte u = pteFor f (perm u) ∧ m'.page f = content u := by
  obtain ⟨f, member, value, mapped, page⟩ := filled.user before flags above (by omega) (by omega)
  refine ⟨f, member, ?_, ?_⟩
  · rw [pte u (by omega), value]
  · rw [adds.pages f, page]
    · exact fun free => holds.parts.freeOwned f free (Space.user_owned mapped)
    · exact holds.user_not_tree mapped

/-- No page was added. -/
theorem same (before : Holds start others d)
    (holds : Holds m others d) (flags : ∀ v, (perm v).toNat < 4096) (low : v ≤ 2 ^ 19) (adds : Adds d P m m')
    (pte : (m'.space d).pte = (m.space d).pte) : Filled d lo (4096 * v) perm content start m' := by
  refine ⟨fun u above below => ?_, fun u other => ?_⟩
  · exact filled.keep before holds flags low adds (fun u _ => congrFun pte u) above (by omega)
  · rw [pte, filled.outside u other]

/-- The next page was added. -/
theorem next {f : Nat} (before : Holds start others d)
    (holds : Holds m others d) (flags : ∀ v, (perm v).toNat < 4096) (start_ : lo ≤ v)
    (low : v ≤ 2 ^ 19) (adds : Adds d P m m') (member : f ∈ start.free)
    (pte : (m'.space d).pte = update (m.space d).pte v (pteFor f (perm v))) (page : m'.page f = content v) :
    Filled d lo (4096 * (v + 1)) perm content start m' := by
  have other : ∀ u, u ≠ v → (m'.space d).pte u = (m.space d).pte u := by
    intro u different
    rw [pte, update_of_ne different]
  refine ⟨fun u above below => ?_, fun u outside => ?_⟩
  · rcases Nat.lt_or_ge u v with earlier | last
    · exact filled.keep before holds flags low adds other above earlier
    · rw [show u = v by omega]
      refine ⟨f, member, ?_, page⟩
      rw [pte, update_self]
  · rw [other u (by omega), filled.outside u (by omega)]

end

end Filled

/-- The tables that the pages from `lo` to the address `hi` need. -/
def Within (lo hi i : Nat) : Prop := ∃ v, lo ≤ v ∧ 4096 * v < hi ∧ v / 1024 = i

section Filling

variable [KernelImage] {others : Set Nat} {d : Nat} {start m : Mem}

/-- `kfree` of a page that was free at the start. -/
theorem Adds.give {P : Nat → Prop} {f : Nat} (adds : Adds d P start m) (holds : Holds m (insert f others) d)
    (member : f ∈ start.free) :
    (m.give f).space d = m.space d ∧ Adds d P start (m.give f) := by
  have space : (m.give f).space d = m.space d := space_setPage (holds.not_tree (Set.mem_insert f others)) _
  refine ⟨space, fun i t here => ?_, fun i other => ?_, fun g owned => ?_, fun g free => ?_,
    fun g notFree outside => ?_⟩
  · rw [space]
    exact adds.kept i t here
  · rw [space]
    exact adds.same i other
  · rw [space] at owned
    exact adds.tree g owned
  · rcases List.mem_cons.1 free with rfl | free
    · exact member
    · exact adds.free g free
  · rw [← adds.pages g notFree outside]
    refine update_of_ne ?_ ..
    rintro rfl
    exact notFree member

/-- How far a loop that fills the pages from `lo` to the address `top` has come at page `v`. -/
structure Filling (others : Set Nat) (d lo top : Nat) (perm : Nat → BitVec 32) (content : Nat → Page)
    (T : Finset Nat) (start : Mem) (v : Nat) (m : Mem) : Prop where
  above : lo ≤ v
  passed : ∀ u, lo ≤ u → u < v → 4096 * u < top
  holds : Holds m others d
  adds : Adds d (Within lo top) start m
  filled : Filled d lo (4096 * v) perm content start m
  paid : Paid d T (v - lo) start m

namespace Filling

variable {lo top v : Nat} {perm : Nat → BitVec 32} {content : Nat → Page} {T : Finset Nat}

theorem init (holds : Holds m others d) (lo top : Nat) (perm : Nat → BitVec 32)
    (content : Nat → Page) (T : Finset Nat) :
    Filling others d lo top perm content T m lo m :=
  ⟨Nat.le.refl, fun _ above below => absurd below (Nat.not_lt.2 above), holds, .refl d _ m, .none ..,
    Nat.sub_self lo ▸ .same rfl rfl rfl rfl⟩

section

variable (filling : Filling others d lo top perm content T start v m)
include filling

/-- The loop ends with all pages. -/
theorem done (last : ¬4096 * v < top) : Holds m others d ∧ Adds d (Within lo top) start m ∧
    Filled d lo top perm content start m ∧ Paid d T ((top + 4095) / 4096 - lo) start m := by
  obtain ⟨above, passed, holds, adds, filled, paid⟩ := filling
  refine ⟨holds, adds, filled.congr fun u later => ?_, paid.mono ?_⟩
  · have inside := passed u later
    omega
  · have inside := passed (v - 1)
    omega

theorem refused (none : ¬m.Ample 1) :
    Holds m.refuse others d ∧ Adds d (Within lo top) start m.refuse ∧
    Filled d lo (4096 * v) perm content start m.refuse ∧
      Unpaid d T (v - lo + 1) start m.refuse :=
  ⟨filling.holds.congr rfl rfl, filling.adds.trans (.refuse d _ m), ⟨filling.filled.inside, filling.filled.outside⟩,
    filling.paid.unpaid (.page none)⟩

/-- The next page is filled and mapped, or it is still in hand. -/
theorem next {f : Nat} {rest : List Nat} (before : Holds start others d) (flags : ∀ v, (perm v).toNat < 4096)
    (low : v < 2 ^ 19) (below : 4096 * v < top) (absent : ¬Present ((start.space d).pte v) ∧ v / 1024 ∈ T)
    (frees : m.free = f :: rest) :
    f ∈ start.free ∧ f ∉ others ∧ wp (mappages d (4096 * v) pgsize (4096 * f) (perm v))
    ((m.take rest).setPage f (content v))
      (fun r m' => (r = 0 ∧ Filling others d lo top perm content T start (v + 1) m') ∨
        (r = -1 ∧ Holds m' (insert f others) d ∧ Adds d (Within lo top) start m' ∧
          Filled d lo (4096 * v) perm content start m' ∧
          Unpaid d T (v - lo + 1) start m'))
      fun _ => False := by
  obtain ⟨above, passed, holds, adds, filled, paid⟩ := filling
  have free : f ∈ m.free := by
    rw [frees]
    exact .head _
  have vacant : ¬Present ((m.space d).pte v) := by
    rw [filled.outside v (by omega)]
    exact absent.1
  have here : ∀ i, i = v / 1024 → Within lo top i := fun i same => ⟨v, above, below, same.symm⟩
  refine ⟨adds.free f free, holds.parts.freeOthers f free,
    wp_mono (newPage_spec holds frees (content v) low vacant (flags v) absent.2) ?_ fun _ => id⟩
  rintro r m' ⟨adds', ends⟩
  have later := adds.trans (adds'.mono here)
  rcases ends with ⟨rfl, holds', pte, page, more⟩ | ⟨rfl, holds', pte, lacks⟩
  · refine .inl ⟨rfl, by omega, fun u later early => ?_, holds', later,
      filled.next before holds flags above low.le adds' (adds.free f free) pte page, ?_⟩
    · rcases Nat.lt_or_ge u v with earlier | last
      · exact passed u later earlier
      · rwa [show u = v by omega]
    · rw [Nat.succ_sub above]
      exact paid.trans more
  · exact .inr ⟨rfl, holds', later, filled.same before holds flags low.le adds' pte, paid.unpaid lacks⟩

end

end Filling

end Filling

end MiniOS.Vm
