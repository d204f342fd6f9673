import Mathlib.Data.Set.Insert
import Mathlib.Data.Sum.Basic
import Mathlib.Logic.Function.Basic
import Mathlib.Tactic.Tauto

namespace MiniOS.Lib

open Function

section Cells

variable {ι α : Type*} {own : ι → Option α} {x : ι} {b : α}

/-- No cell has two owners. -/
def Injects (own : ι → Option α) : Prop := ∀ ⦃x y b⦄, own x = some b → own y = some b → x = y

/-- The cells that have an owner. -/
def holdings (own : ι → Option α) : Set α := {b | ∃ x, own x = some b}

theorem mem_holdings : b ∈ holdings own ↔ ∃ x, own x = some b := Iff.rfl

theorem holdings_none : holdings (fun _ : ι => (none : Option α)) = ∅ := by
  ext b
  constructor
  · rintro ⟨_, held⟩
    cases held
  · exact False.elim

theorem injects_none : Injects (fun _ : ι => (none : Option α)) := by
  intro x y b held
  cases held

theorem Injects.comp {κ : Type*} {f : κ → ι} (injects : Injects own) (injective : Function.Injective f) :
    Injects (own ∘ f) :=
  fun _ _ _ here there => injective (injects here there)

variable [DecidableEq ι]

theorem Injects.claim (injects : Injects own) (fresh : b ∉ holdings own) : Injects (update own x (some b)) := by
  intro y z c here there
  by_cases atY : y = x
  · by_cases atZ : z = x
    · rw [atY, atZ]
    · subst atY
      rw [update_self] at here
      rw [update_of_ne atZ] at there
      cases here
      exact absurd ⟨z, there⟩ fresh
  · rw [update_of_ne atY] at here
    by_cases atZ : z = x
    · subst atZ
      rw [update_self] at there
      cases there
      exact absurd ⟨y, here⟩ fresh
    · rw [update_of_ne atZ] at there
      exact injects here there

theorem Injects.release (injects : Injects own) : Injects (update own x none) := by
  have old : ∀ {y c}, update own x none y = some c → own y = some c := by
    intro y c here
    by_cases atY : y = x
    · subst atY
      rw [update_self] at here
      cases here
    · rwa [update_of_ne atY] at here
  exact fun _ _ _ here there => injects (old here) (old there)

theorem holdings_claim (vacant : own x = none) : holdings (update own x (some b)) = insert b (holdings own) := by
  ext c
  rw [Set.mem_insert_iff, mem_holdings, mem_holdings]
  constructor
  · rintro ⟨y, here⟩
    by_cases atY : y = x
    · subst atY
      rw [update_self] at here
      exact .inl (Option.some.inj here).symm
    · rw [update_of_ne atY] at here
      exact .inr ⟨y, here⟩
  · rintro (rfl | ⟨y, here⟩)
    · exact ⟨x, update_self ..⟩
    · refine ⟨y, ?_⟩
      rw [update_of_ne, here]
      rintro rfl
      rw [vacant] at here
      cases here

theorem holdings_release (injects : Injects own) (held : own x = some b) :
    holdings (update own x none) = holdings own \ {b} := by
  ext c
  rw [Set.mem_sdiff, Set.mem_singleton_iff, mem_holdings, mem_holdings]
  constructor
  · rintro ⟨y, here⟩
    have other : y ≠ x := by
      rintro rfl
      rw [update_self] at here
      cases here
    rw [update_of_ne other] at here
    refine ⟨⟨y, here⟩, ?_⟩
    rintro rfl
    exact other (injects here held)
  · rintro ⟨⟨y, here⟩, different⟩
    refine ⟨y, ?_⟩
    rw [update_of_ne, here]
    rintro rfl
    rw [held] at here
    exact different (Option.some.inj here).symm

/-- Vacant owners, which meet `P`, have taken the new cells one after the other. -/
inductive Acquired (own : ι → Option α) (P : ι → Prop) : List α → (ι → Option α) → Prop
  | refl : Acquired own P [] own
  | claim {new : List α} {own' : ι → Option α} (before : Acquired own P new own') {x : ι} (b : α) (allowed : P x)
      (vacant : own' x = none) : Acquired own P (new ++ [b]) (update own' x (some b))

namespace Acquired

variable {P : ι → Prop} {new : List α} {own' : ι → Option α}

theorem trans {more : List α} {own'' : ι → Option α} (first : Acquired own P new own')
    (second : Acquired own' P more own'') :
    Acquired own P (new ++ more) own'' := by
  induction second with
  | refl => rwa [List.append_nil]
  | claim _ b allowed vacant before =>
    rw [← List.append_assoc]
    exact before.claim b allowed vacant

section

variable (claims : Acquired own P new own')
include claims

theorem mono {Q : ι → Prop} (weaker : ∀ x, P x → Q x) : Acquired own Q new own' := by
  induction claims with
  | refl => exact refl
  | claim _ b allowed vacant before => exact before.claim b (weaker _ allowed) vacant

theorem kept (held : own x = some b) : own' x = some b := by
  induction claims with
  | refl => exact held
  | claim _ c allowed vacant before =>
    rw [update_of_ne, before]
    rintro rfl
    rw [vacant] at before
    cases before

theorem same (other : ¬P x) : own' x = own x := by
  induction claims with
  | refl => rfl
  | claim _ c allowed vacant before =>
    rw [update_of_ne, before]
    rintro rfl
    exact other allowed

theorem mem_holdings_iff : b ∈ holdings own' ↔ b ∈ holdings own ∨ b ∈ new := by
  induction claims with
  | refl => simp only [List.not_mem_nil, or_false]
  | claim _ c allowed vacant before =>
    rw [holdings_claim vacant, Set.mem_insert_iff, before, List.mem_append, List.mem_singleton]
    tauto

/-- Acquired of one group of owners are claims of all of them. -/
theorem elim {κ : Type*} [DecidableEq κ] {rest : κ → Option α} :
    Acquired (Sum.elim own rest) (Sum.elim P fun _ => False) new (Sum.elim own' rest) := by
  induction claims with
  | refl => exact refl
  | claim _ c allowed vacant before =>
    rw [← Sum.update_elim_inl]
    exact before.claim c allowed vacant

end

end Acquired

end Cells

variable {α : Type*} {pool others owned : Set α} {free : List α} {f : α}

/-- Each cell of the pool is free, or belongs to others, or is owned, and only one of these. -/
structure Parts (pool : Set α) (free : List α) (others owned : Set α) : Prop where
  nodup : free.Nodup
  cover : ∀ f, f ∈ pool ↔ f ∈ free ∨ f ∈ others ∨ f ∈ owned
  freeOthers : ∀ f ∈ free, f ∉ others
  freeOwned : ∀ f ∈ free, f ∉ owned
  apart : ∀ f ∈ others, f ∉ owned

namespace Parts

/-- The cells that are not free belong to others. -/
theorem of_free (nodup : free.Nodup) (inside : ∀ f ∈ free, f ∈ pool) :
    Parts pool free {f | f ∈ pool ∧ f ∉ free} ∅ := by
  refine ⟨nodup, fun f => ?_, fun f member other => other.2 member, fun f _ => Set.notMem_empty f,
    fun f _ => Set.notMem_empty f⟩
  constructor
  · intro member
    by_cases here : f ∈ free
    · exact .inl here
    · exact .inr (.inl ⟨member, here⟩)
  · rintro (here | other | none)
    · exact inside f here
    · exact other.1
    · exact none.elim

section

variable (parts : Parts pool free others owned)
include parts

theorem swap : Parts pool free owned others := by
  refine ⟨parts.nodup, fun f => ?_, parts.freeOwned, parts.freeOthers, fun f mine other => parts.apart f other mine⟩
  rw [parts.cover]
  tauto

theorem mem_free_iff : f ∈ free ↔ f ∈ pool ∧ f ∉ others ∧ f ∉ owned := by
  constructor
  · intro member
    exact ⟨(parts.cover f).2 (.inl member), parts.freeOthers f member, parts.freeOwned f member⟩
  · rintro ⟨inside, notOther, notOwned⟩
    exact ((parts.cover f).1 inside).resolve_right (not_or.2 ⟨notOther, notOwned⟩)

theorem free_pool (member : f ∈ free) : f ∈ pool := (parts.cover f).2 (.inl member)

theorem owned_pool (member : f ∈ owned) : f ∈ pool :=
  (parts.cover f).2 (.inr (.inr member))

end

/-- What is owned now was free when nothing was owned. -/
theorem owned_was_free {free' : List α} (before : Parts pool free others ∅) (after : Parts pool free' others owned)
    (mine : f ∈ owned) :
    f ∈ free :=
  before.mem_free_iff.2 ⟨after.owned_pool mine, fun other => after.apart f other mine, Set.notMem_empty f⟩

theorem free_was_free {free' : List α} (before : Parts pool free others ∅) (after : Parts pool free' others owned)
    (member : f ∈ free') :
    f ∈ free :=
  before.mem_free_iff.2 ⟨after.free_pool member, after.freeOthers f member, Set.notMem_empty f⟩

/-- The next free cell is handed out. -/
theorem take (parts : Parts pool (f :: free) others owned) : Parts pool free (insert f others) owned := by
  obtain ⟨new, nodup⟩ := List.nodup_cons.1 parts.nodup
  refine ⟨nodup, fun g => ?_, fun g member => ?_, fun g member => ?_, fun g member => ?_⟩
  · rw [parts.cover, List.mem_cons, Set.mem_insert_iff]
    tauto
  · rintro (rfl | other)
    · exact new member
    · exact parts.freeOthers g (.tail _ member) other
  · exact parts.freeOwned g (.tail _ member)
  · rcases member with rfl | other
    · exact parts.freeOwned g (.head _)
    · exact parts.apart g other

/-- A cell that was handed out is given back. -/
theorem give (parts : Parts pool free (insert f others) owned) (new : f ∉ others) :
    Parts pool (f :: free) others owned := by
  refine ⟨List.nodup_cons.2 ⟨fun member => ?_, parts.nodup⟩, fun g => ?_, fun g member => ?_, fun g member => ?_,
    fun g other => parts.apart g (Set.mem_insert_of_mem _ other)⟩
  · exact parts.freeOthers f member (Set.mem_insert _ _)
  · rw [parts.cover, List.mem_cons, Set.mem_insert_iff]
    tauto
  · rcases List.mem_cons.1 member with rfl | member
    · exact new
    · exact fun other => parts.freeOthers g member (Set.mem_insert_of_mem _ other)
  · rcases List.mem_cons.1 member with rfl | member
    · exact parts.apart g (Set.mem_insert _ _)
    · exact parts.freeOwned g member

/-- A cell that was handed out gets an owner. -/
theorem own (parts : Parts pool free (insert f others) owned) (new : f ∉ others) :
    Parts pool free others (insert f owned) := by
  refine ⟨parts.nodup, fun g => ?_, fun g member other => ?_, fun g member => ?_, fun g other => ?_⟩
  · rw [parts.cover, Set.mem_insert_iff, Set.mem_insert_iff]
    tauto
  · exact parts.freeOthers g member (Set.mem_insert_of_mem _ other)
  · rintro (rfl | mine)
    · exact parts.freeOthers g member (Set.mem_insert _ _)
    · exact parts.freeOwned g member mine
  · rintro (rfl | mine)
    · exact new other
    · exact parts.apart g (Set.mem_insert_of_mem _ other) mine

/-- An owner lets go of a cell. -/
theorem disown (parts : Parts pool free others owned) (mine : f ∈ owned) :
    Parts pool free (insert f others) (owned \ {f}) := by
  refine ⟨parts.nodup, fun g => ?_, fun g member => ?_, fun g member other => parts.freeOwned g member other.1,
    fun g member => ?_⟩
  · rw [parts.cover, Set.mem_insert_iff, Set.mem_sdiff, Set.mem_singleton_iff]
    constructor
    · rintro (free | other | owned)
      · exact .inl free
      · exact .inr (.inl (.inr other))
      · by_cases same : g = f
        · exact .inr (.inl (.inl same))
        · exact .inr (.inr ⟨owned, same⟩)
    · rintro (free | (rfl | other) | owned)
      · exact .inl free
      · exact .inr (.inr mine)
      · exact .inr (.inl other)
      · exact .inr (.inr owned.1)
  · rintro (rfl | other)
    · exact parts.freeOwned g member mine
    · exact parts.freeOthers g member other
  · rcases member with rfl | other
    · exact fun gone => gone.2 rfl
    · exact fun left => parts.apart g other left.1

section Family

variable {κ ι : Type*} [DecidableEq κ] {own : κ → ι → Option α}

/-- The cells of all members of a family but one. -/
def rest (own : κ → ι → Option α) (k : κ) : Set α := {b | ∃ j, j ≠ k ∧ b ∈ holdings (own j)}

omit [DecidableEq κ] in
/-- A member that has nothing is not missed. -/
theorem rest_none {k : κ} (empty : own k = fun _ => none) : rest own k = holdings (uncurry own) := by
  ext b
  constructor
  · rintro ⟨j, _, x, held⟩
    exact ⟨(j, x), held⟩
  · rintro ⟨⟨j, x⟩, held⟩
    refine ⟨j, ?_, x, held⟩
    rintro rfl
    rw [uncurry_apply_pair, empty] at held
    cases held

/-- One member sees the cells of the others as cells of others. -/
theorem focus (injects : Injects (uncurry own)) (parts : Parts pool free ∅ (holdings (uncurry own))) (k : κ) :
    Injects (own k) ∧ Parts pool free (rest own k) (holdings (own k)) := by
  have all : ∀ f, f ∈ holdings (uncurry own) ↔ f ∈ rest own k ∨ f ∈ holdings (own k) := by
    intro f
    constructor
    · rintro ⟨⟨j, x⟩, held⟩
      by_cases same : j = k
      · subst same
        exact .inr ⟨x, held⟩
      · exact .inl ⟨j, same, x, held⟩
    · rintro (⟨j, _, x, held⟩ | ⟨x, held⟩)
      · exact ⟨(j, x), held⟩
      · exact ⟨(k, x), held⟩
  refine ⟨fun x y f here there => ?_, parts.nodup, fun f => ?_, fun f free other => ?_, fun f free mine => ?_,
    fun f other mine => ?_⟩
  · exact (Prod.mk.inj (injects (x := (k, x)) (y := (k, y)) here there)).2
  · rw [parts.cover, all]
    simp only [Set.mem_empty_iff_false, false_or]
  · exact parts.freeOwned f free ((all f).2 (.inl other))
  · exact parts.freeOwned f free ((all f).2 (.inr mine))
  · obtain ⟨j, different, x, held⟩ := other
    obtain ⟨y, held'⟩ := mine
    exact different (Prod.mk.inj (injects (x := (j, x)) (y := (k, y)) held held')).1

/-- One member changes, and the cells of the others are still those of others. -/
theorem unfocus (injects : Injects (uncurry own)) {k : κ} {new : ι → Option α} (mine : Injects new)
    (parts : Parts pool free (rest own k) (holdings new)) :
    Injects (uncurry (update own k new)) ∧
      Parts pool free ∅ (holdings (uncurry (update own k new))) := by
  have here : ∀ x, uncurry (update own k new) (k, x) = new x := by
    intro x
    rw [uncurry_apply_pair, update_self]
  have there : ∀ {j}, j ≠ k → ∀ x, uncurry (update own k new) (j, x) = own j x := by
    intro j other x
    rw [uncurry_apply_pair, update_of_ne other]
  have all : ∀ f, f ∈ holdings (uncurry (update own k new)) ↔ f ∈ rest own k ∨ f ∈ holdings new := by
    intro f
    constructor
    · rintro ⟨⟨j, x⟩, held⟩
      by_cases same : j = k
      · subst same
        exact .inr ⟨x, (here x).symm.trans held⟩
      · exact .inl ⟨j, same, x, (there same x).symm.trans held⟩
    · rintro (⟨j, other, x, held⟩ | ⟨x, held⟩)
      · exact ⟨(j, x), (there other x).trans held⟩
      · exact ⟨(k, x), (here x).trans held⟩
  refine ⟨?_, parts.nodup, fun f => ?_, fun f _ => Set.notMem_empty f, fun f free owned => ?_,
    fun f none => none.elim⟩
  · rintro ⟨i, x⟩ ⟨j, y⟩ f heldX heldY
    by_cases atI : i = k
    · subst atI
      rw [here] at heldX
      by_cases atJ : j = i
      · subst atJ
        rw [here] at heldY
        rw [mine heldX heldY]
      · rw [there atJ] at heldY
        exact absurd ⟨x, heldX⟩ (parts.apart f ⟨j, atJ, y, heldY⟩)
    · rw [there atI] at heldX
      by_cases atJ : j = k
      · subst atJ
        rw [here] at heldY
        exact absurd ⟨y, heldY⟩ (parts.apart f ⟨i, atI, x, heldX⟩)
      · rw [there atJ] at heldY
        exact injects (x := (i, x)) (y := (j, y)) heldX heldY
  · rw [parts.cover, all]
    simp only [Set.mem_empty_iff_false, false_or]
  · rcases (all f).1 owned with other | own
    · exact parts.freeOthers f free other
    · exact parts.freeOwned f free own

end Family

/-- The new cells come from the front of the free list. -/
theorem claims {ι : Type*} [DecidableEq ι] {own own' : ι → Option α} {P : ι → Prop} {new : List α}
    (injects : Injects own) (claims : Acquired own P new own') :
    ∀ {free}, Parts pool (new ++ free) others (holdings own) →
      Injects own' ∧ Parts pool free others (holdings own') := by
  induction claims with
  | refl => exact fun parts => ⟨injects, parts⟩
  | claim _ b allowed vacant before =>
    intro free parts
    rw [List.append_assoc, List.singleton_append] at parts
    obtain ⟨injects', parts'⟩ := before parts
    rw [holdings_claim vacant]
    exact ⟨injects'.claim (parts'.freeOwned b (.head _)),
      parts'.take.own (parts'.freeOthers b (.head _))⟩

end Parts

end MiniOS.Lib
