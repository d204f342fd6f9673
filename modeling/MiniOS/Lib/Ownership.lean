import Mathlib.Data.Finset.Card

namespace MiniOS.Lib

variable {ι : Type} {own own' : ι → Option Nat} {used used' : Nat → Bool} {low high : Nat} {b : Nat}

/-- The cells below `low` are always used. A cell above is used exactly if it has
an owner, and it has one owner at most. -/
structure Owns (own : ι → Option Nat) (used : Nat → Bool) (low high : Nat) : Prop where
  range : ∀ {x b}, own x = some b → low ≤ b ∧ b < high
  apart : ∀ {x y b}, own x = some b → own y = some b → x = y
  exact : ∀ {b}, b < high → (used b = true ↔ b < low ∨ ∃ x, own x = some b)

/-- The number of cells below `high` that are not used. -/
def spare (used : Nat → Bool) (high : Nat) : Nat := ((Finset.range high).filter fun b => used b = false).card

/-- Owners of different cells are no more than the cells. -/
theorem card_le_of_cells {κ : Type} {S : Finset κ} (cell : κ → Option Nat)
    (filled : ∀ x ∈ S, ∃ b < high, cell x = some b) (apart : ∀ x ∈ S, ∀ y ∈ S, ∀ b, cell x = some b →
      cell y = some b → x = y) : S.card ≤ high := by
  choose! b inside here using filled
  have fits : S.card ≤ (Finset.range high).card := Finset.card_le_card_of_injOn b
    (fun x mem => Finset.mem_coe.2 (Finset.mem_range.2 (inside x mem))) fun x mem y mem' same =>
      apart x mem y mem' (b x) (here x mem) (same ▸ here y mem')
  rwa [Finset.card_range] at fits

theorem spare_pos (inside : b < high) (free : used b = false) : 0 < spare used high :=
  Finset.card_pos.2 ⟨b, Finset.mem_filter.2 ⟨Finset.mem_range.2 inside, free⟩⟩

theorem spare_eq_zero (full : ∀ b < high, used b = true) : spare used high = 0 := by
  refine Finset.card_eq_zero.2 (Finset.filter_eq_empty_iff.2 fun b inside free => ?_)
  rw [full b (Finset.mem_range.1 inside)] at free
  cases free

theorem spare_congr (same : ∀ c < high, used' c = used c) : spare used' high = spare used high :=
  congrArg Finset.card (Finset.filter_congr fun c inside => by rw [same c (Finset.mem_range.1 inside)])

/-- A cell more is used. -/
theorem spare_mark (inside : b < high) (free : used b = false) (marked : used' b = true)
    (same : ∀ c < high, c ≠ b → used' c = used c) : spare used' high + 1 = spare used high := by
  have without : ((Finset.range high).filter fun c => used' c = false) =
      ((Finset.range high).filter fun c => used c = false).erase b := by
    ext c
    simp only [Finset.mem_filter, Finset.mem_erase, Finset.mem_range]
    by_cases here : c = b
    · subst here
      simp [marked]
    · refine ⟨fun mem => ⟨here, mem.1, ?_⟩, fun mem => ⟨mem.2.1, ?_⟩⟩
      · rw [← same c mem.1 here, mem.2]
      · rw [same c mem.2.1 here, mem.2.2]
  rw [spare, without, spare]
  exact Finset.card_erase_add_one (Finset.mem_filter.2 ⟨Finset.mem_range.2 inside, free⟩)

namespace Owns

variable {x : ι} {b : Nat}

section

variable (owns : Owns own used low high)
include owns

theorem used_of_own (here : own x = some b) : used b = true :=
  (owns.exact (owns.range here).2).2 (.inr ⟨x, here⟩)

theorem not_own (free : used b = false) : own x ≠ some b := by
  intro here
  rw [owns.used_of_own here] at free
  cases free

theorem low_le (inside : b < high) (free : used b = false) : low ≤ b := by
  by_contra below
  rw [(owns.exact inside).2 (.inl (by omega))] at free
  cases free

theorem congr (owner : ∀ x, own' x = own x) (same : ∀ c < high, used' c = used c) :
    Owns own' used' low high where
  range here := owns.range ((owner _).symm.trans here)
  apart here there := owns.apart ((owner _).symm.trans here) ((owner _).symm.trans there)
  exact inside := by
    rw [same _ inside, owns.exact inside]
    simp only [owner]

/-- An owner without a cell takes one that is not used. -/
theorem claim (vacant : own x = none) (inside : b < high)
    (free : used b = false) (taken : own' x = some b) (others : ∀ y, y ≠ x → own' y = own y)
    (marked : used' b = true) (same : ∀ c < high, c ≠ b → used' c = used c) : Owns own' used' low high where
  range {y c} here := by
    by_cases at_x : y = x
    · subst at_x
      cases taken.symm.trans here
      exact ⟨owns.low_le inside free, inside⟩
    · exact owns.range ((others y at_x).symm.trans here)
  apart {y z c} here there := by
    by_cases at_y : y = x
    · by_cases at_z : z = x
      · rw [at_y, at_z]
      · subst at_y
        cases taken.symm.trans here
        exact absurd ((others z at_z).symm.trans there) (owns.not_own free)
    · rw [others y at_y] at here
      by_cases at_z : z = x
      · subst at_z
        cases taken.symm.trans there
        exact absurd here (owns.not_own free)
      · exact owns.apart here ((others z at_z).symm.trans there)
  exact {c} bound := by
    by_cases here : c = b
    · subst here
      exact ⟨fun _ => .inr ⟨x, taken⟩, fun _ => marked⟩
    · rw [same c bound here, owns.exact bound]
      refine or_congr_right ⟨fun ⟨y, mem⟩ => ⟨y, ?_⟩, fun ⟨y, mem⟩ => ⟨y, ?_⟩⟩
      · rw [others y, mem]
        rintro rfl
        rw [vacant] at mem
        cases mem
      · rw [← others y, mem]
        rintro rfl
        exact here (Option.some.inj (mem.symm.trans taken))

/-- An owner gives its cell back. -/
theorem release (held : own x = some b) (left : own' x = none)
    (others : ∀ y, y ≠ x → own' y = own y) (cleared : used' b = false)
    (same : ∀ c < high, c ≠ b → used' c = used c) : Owns own' used' low high := by
  have old : ∀ {y c}, own' y = some c → y ≠ x ∧ own y = some c := by
    intro y c here
    have other : y ≠ x := by
      rintro rfl
      rw [left] at here
      cases here
    exact ⟨other, (others y other).symm.trans here⟩
  refine ⟨fun here => owns.range (old here).2, fun here there => owns.apart (old here).2 (old there).2,
    fun {c} bound => ?_⟩
  by_cases here : c = b
  · subst here
    refine ⟨fun used => ?_, ?_⟩
    · rw [cleared] at used
      cases used
    · rintro (below | ⟨y, mem⟩)
      · exact absurd (owns.range held).1 (by omega)
      · exact absurd (owns.apart (old mem).2 held) (old mem).1
  · rw [same c bound here, owns.exact bound]
    refine or_congr_right ⟨fun ⟨y, mem⟩ => ⟨y, ?_⟩, fun ⟨y, mem⟩ => ⟨y, (old mem).2⟩⟩
    rw [others y, mem]
    rintro rfl
    exact here (Option.some.inj (mem.symm.trans held))

end

end Owns

end MiniOS.Lib
