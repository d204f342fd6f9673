import MiniOS.Slab.Bitmap

namespace MiniOS

variable {n c : Nat}

theorem getnumofBitsLoop_eq {rounds : Nat} (bound : n < 2 ^ rounds) (nonzero : n ≠ 0) :
    getnumofBitsLoop rounds n = n.log2 + 1 := by
  induction rounds generalizing n with
  | zero => omega
  | succ rounds ih =>
    rw [Nat.pow_succ] at bound
    rw [getnumofBitsLoop, if_neg nonzero, Nat.shiftRight_one, Nat.log2_def]
    by_cases small : 2 ≤ n
    · rw [if_pos small, ih (by omega) (by omega)]
    · have half : n / 2 = 0 := by omega
      rw [if_neg small, half]
      cases rounds <;> rfl

theorem getnumofBits_eq (bound : n < 2 ^ 32) (nonzero : n ≠ 0) : getnumofBits n = n.log2 + 1 :=
  getnumofBitsLoop_eq bound nonzero

theorem getslabIdx_classSize (bound : c < 9) : getslabIdx (classSize c) = c := by
  have power : classSize c < 2 ^ 32 := Nat.pow_lt_pow_right (by decide) (by omega)
  rw [getslabIdx, getnumofBits_eq power (Nat.pow_pos (by decide)).ne', classSize, Nat.log2_two_pow]
  omega

/-- A request is rounded up to the size of a class. -/
theorem nextPowerOf2_spec (positive : 0 < n) (small : n ≤ 2048) :
    ∃ c < 9, nextPowerOf2 n = classSize c ∧ n ≤ classSize c := by
  unfold nextPowerOf2
  by_cases tiny : n < 8
  · exact ⟨0, by decide, if_pos tiny, by simp only [classSize]; omega⟩
  rw [if_neg tiny]
  have lower := Nat.log2_self_le positive.ne'
  have upper := @Nat.lt_log2_self n
  have atLeast : 3 ≤ n.log2 := (Nat.le_log2 positive.ne').2 (by omega)
  by_cases power : n ≠ 0 ∧ n &&& (n - 1) = 0
  · obtain ⟨j, rfl⟩ := (Nat.and_sub_one_eq_zero_iff_isPowerOfTwo positive.ne').1 power.2
    rw [Nat.log2_two_pow] at atLeast
    have atMost : j ≤ 11 := (Nat.pow_le_pow_iff_right (a := 2) (by decide)).1 small
    have exponent : j - 3 + 3 = j := by omega
    refine ⟨j - 3, by omega, ?_, ?_⟩
    · rw [if_pos power, classSize, exponent]
    · rw [classSize, exponent]
  · have strict : n.log2 < 11 := by
      by_contra large
      have whole : 2 ^ 11 ≤ 2 ^ n.log2 := Nat.pow_le_pow_right (by decide) (by omega)
      have same : n = 2 ^ 11 := by omega
      exact power ⟨positive.ne', by rw [same]; decide⟩
    have exponent : n.log2 - 2 + 3 = n.log2 + 1 := by omega
    refine ⟨n.log2 - 2, by omega, ?_, ?_⟩
    · rw [if_neg power, getnumofBits_eq (by omega) positive.ne', Nat.one_shiftLeft, classSize, exponent]
    · rw [classSize, exponent]
      omega

theorem kmallocIdx_spec {size : Int} (positive : 0 < size) (small : size ≤ 2048) :
    ∃ c : Nat, c < 9 ∧ kmallocIdx size = c ∧ size ≤ classSize c := by
  obtain ⟨c, bound, rounded, fits⟩ := nextPowerOf2_spec (n := size.toNat) (by omega) (by omega)
  refine ⟨c, bound, ?_, by omega⟩
  rw [kmallocIdx, rounded, getslabIdx_classSize bound]

theorem kmallocIdx_classSize (bound : c < 9) : kmallocIdx (classSize c) = c := by
  interval_cases c <;> decide

end MiniOS
