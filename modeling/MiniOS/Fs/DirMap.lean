import MiniOS.Fs.Entries
import Mathlib.Data.List.TakeWhile

namespace MiniOS

/-- The first `n` characters of a string, up to its terminating 0. -/
def firstChars (n : Nat) (name : Bytes) : Bytes := (name.take n).takeWhile (· ≠ 0)

/-- What a directory knows of a name. -/
def key (name : Bytes) : Bytes := firstChars dirsiz name

section Names

variable {p q : Bytes} {n : Nat}

theorem firstChars_zero (name : Bytes) : firstChars 0 name = [] := rfl

theorem firstChars_succ (n : Nat) (name : Bytes) :
    firstChars (n + 1) name = if name.headD 0 = 0 then [] else name.headD 0 :: firstChars n name.tail := by
  cases name with
  | nil => rfl
  | cons c name =>
    rw [firstChars, List.take_succ_cons, List.headD_cons]
    split
    · rename_i zero
      rw [List.takeWhile_cons_of_neg (by simpa using zero)]
    · rename_i visible
      rw [List.takeWhile_cons_of_pos (by simpa using visible)]
      rfl

theorem strncmp_iff (p q : Bytes) (n : Nat) : strncmp p q n = true ↔ firstChars n p = firstChars n q := by
  induction n generalizing p q with
  | zero => simp [strncmp, firstChars_zero]
  | succ n ih =>
    rw [strncmp, firstChars_succ, firstChars_succ]
    by_cases same : p.headD 0 = q.headD 0
    · rw [← same]
      by_cases zero : p.headD 0 = 0
      · rw [if_neg (fun wrong => wrong.1 zero), if_pos zero, if_pos zero]
        simp
      · rw [if_pos ⟨zero, rfl⟩, if_neg zero, if_neg zero, ih, List.cons.injEq]
        simp
    · rw [if_neg (fun wrong => same wrong.2), decide_eq_true_eq]
      refine ⟨fun wrong => absurd wrong same, fun wrong => ?_⟩
      split at wrong <;> split at wrong
      · rename_i zero zero'
        rw [zero, zero']
      · cases wrong
      · cases wrong
      · exact (List.cons.inj wrong).1

theorem namecmp_iff (p q : Bytes) : namecmp p q = true ↔ key p = key q := strncmp_iff p q dirsiz

theorem firstChars_strncpy (t : Bytes) (n : Nat) : firstChars n (strncpy t n) = firstChars n t := by
  induction n generalizing t with
  | zero => rfl
  | succ n ih =>
    rw [strncpy, firstChars_succ n t]
    split
    · rfl
    · rename_i visible
      rw [firstChars_succ, List.headD_cons, if_neg visible, List.tail_cons, ih]

theorem key_strncpy (t : Bytes) : key (strncpy t dirsiz) = key t := firstChars_strncpy t dirsiz

/-- A name without a 0 is known by its first 14 characters. -/
theorem key_of_visible {name : Bytes} (visible : ∀ c ∈ name, c ≠ 0) : key name = name.take dirsiz := by
  rw [key, firstChars, List.takeWhile_eq_self_iff]
  intro c member
  exact decide_eq_true (visible c (List.mem_of_mem_take member))

/-- The first element of a path. -/
def component (path : Bytes) : Bytes := (path.dropWhile (· = slash)).takeWhile fun c => c ≠ slash ∧ c ≠ 0

theorem component_visible (path : Bytes) : ∀ c ∈ component path, c ≠ 0 := by
  intro c member
  have both := List.mem_takeWhile_imp member
  rw [decide_eq_true_eq] at both
  exact both.2

/-- The buffer `name` after `skipelem` has copied an element over what it held before. -/
def nameBuffer (buf elem : Bytes) : Bytes :=
  if elem.length ≥ dirsiz then elem.take dirsiz else elem ++ 0 :: buf.drop (elem.length + 1)

/-- What the buffer held before does not matter. -/
theorem key_nameBuffer (buf : Bytes) {elem : Bytes} (visible : ∀ c ∈ elem, c ≠ 0) :
    key (nameBuffer buf elem) = key elem := by
  rw [nameBuffer]
  split
  · rw [key_of_visible visible, key_of_visible fun c member => visible c (List.mem_of_mem_take member),
      List.take_take, Nat.min_self]
  · rename_i short
    have fits : elem.length ≤ dirsiz := by omega
    obtain ⟨more, room⟩ : ∃ more, dirsiz - elem.length = more + 1 := ⟨dirsiz - elem.length - 1, by omega⟩
    rw [key_of_visible visible, key, firstChars, List.take_append, List.take_of_length_le fits,
      room, List.take_succ_cons,
      List.takeWhile_append_of_pos fun c member => decide_eq_true (visible c member),
      List.takeWhile_cons_of_neg (by simp),
      List.append_nil]

end Names

/-- No two entries that are used have the same name. -/
def DistinctNames (es : List Dirent) : Prop :=
  ∀ (x y : Nat) (de de' : Dirent), es[x]? = some de → es[y]? = some de' → de.inum ≠ 0 → de'.inum ≠ 0 →
  key de.name = key de'.name → x = y

section Map

variable {data name name' : Bytes} {de de' : Dirent} {es : List Dirent} {x j off : Nat}

theorem lookup_eq_none_iff (whole : data.length % 16 = 0) :
    lookup data name = none ↔ ∀ (x : Nat) (de : Dirent), (entries data)[x]? = some de → de.inum ≠ 0 →
    key name ≠ key de.name := by
  rw [lookup_eq_none whole]
  constructor
  · intro none x de here used same
    have other := none de (List.mem_of_getElem? here) used
    rw [(namecmp_iff name de.name).2 same] at other
    cases other
  · intro none de member used
    obtain ⟨x, here⟩ := List.mem_iff_getElem?.mp member
    exact eq_false_of_ne_true (mt (namecmp_iff name de.name).1 (none x de here used))

/-- `lookup` finds the entry of the name. -/
theorem lookup_iff (whole : data.length % 16 = 0) (distinct : DistinctNames (entries data)) :
    lookup data name = some (j, off) ↔ ∃ (x : Nat) (de : Dirent), off = 16 * x ∧ (entries data)[x]? = some de ∧
    de.inum ≠ 0 ∧
      key name = key de.name ∧ de.inum.toNat = j := by
  constructor
  · intro found
    obtain ⟨x, de, place, here, used, same, number⟩ := lookup_entry whole found
    exact ⟨x, de, place, here, used, (namecmp_iff _ _).1 same, number⟩
  · rintro ⟨x, de, rfl, here, used, same, rfl⟩
    cases found : lookup data name with
    | none => exact absurd same ((lookup_eq_none_iff whole).1 found x de here used)
    | some entry =>
      obtain ⟨j, off⟩ := entry
      obtain ⟨y, de', rfl, here', used', same', rfl⟩ := lookup_entry whole found
      have place := distinct x y de de' here here' used used' (same.symm.trans ((namecmp_iff _ _).1 same'))
      subst place
      rw [Option.some.inj (here.symm.trans here')]

/-- The answer depends on the first 14 characters of the name only. -/
theorem lookup_congr (data : Bytes) (same : key name = key name') : lookup data name = lookup data name' := by
  have match' (q : Bytes) : namecmp name q = namecmp name' q := by
    rw [Bool.eq_iff_iff, namecmp_iff, namecmp_iff, same]
  simp only [lookup, match']

theorem DistinctNames.put (distinct : DistinctNames es) (start : x ≤ es.length)
    (new : ∀ (y : Nat) (de' : Dirent), y ≠ x → es[y]? = some de' → de'.inum ≠ 0 → de.inum ≠ 0 →
      key de.name ≠ key de'.name) :
    DistinctNames (putEntry es x de) := by
  intro y z a b here here' used used' same
  rw [getElem?_putEntry start] at here here'
  split at here <;> split at here'
  · omega
  · cases here
    exact absurd same (new z b (by assumption) here' used' used)
  · cases here'
    exact absurd same.symm (new y a (by assumption) here used used')
  · exact distinct y z a b here here' used used' same

section Write

variable {data' : Bytes} (whole : data.length % 16 = 0) (whole' : data'.length % 16 = 0)
  (distinct : DistinctNames (entries data)) (distinct' : DistinctNames (entries data'))
include whole whole' distinct distinct'

/-- A name that neither the old nor the new entry has is not affected. -/
theorem lookup_other {name : Bytes} (start : x ≤ (entries data).length)
    (put : entries data' = putEntry (entries data) x de) (before : ∀ old, (entries data)[x]? = some old →
      old.inum ≠ 0 → key name ≠ key old.name)
    (after : de.inum ≠ 0 → key name ≠ key de.name) : lookup data' name = lookup data name := by
  refine Option.ext fun found => ?_
  obtain ⟨j, off⟩ := found
  rw [lookup_iff whole' distinct', lookup_iff whole distinct, put]
  constructor
  · rintro ⟨y, a, place, there, used, same, number⟩
    rw [getElem?_putEntry start] at there
    split at there
    · cases there
      exact absurd same (after used)
    · exact ⟨y, a, place, there, used, same, number⟩
  · rintro ⟨y, a, place, there, used, same, number⟩
    have apart : y ≠ x := by
      rintro rfl
      exact before a there used same
    exact ⟨y, a, place, by rw [getElem?_putEntry start, if_neg apart, there], used, same, number⟩

/-- The names that a new entry does not have are found as before. -/
theorem lookup_put (start : x ≤ (entries data).length) (put : entries data' = putEntry (entries data) x de)
    (free : ∀ old, (entries data)[x]? = some old → old.inum = 0) (used : de.inum ≠ 0) (name : Bytes) :
    lookup data' name = if key name = key de.name then some (de.inum.toNat, 16 * x) else lookup data name := by
  split
  · rename_i same
    refine (lookup_iff whole' distinct').2 ⟨x, de, rfl, ?_, used, same, rfl⟩
    rw [put, getElem?_putEntry start, if_pos rfl]
  · rename_i other
    exact lookup_other whole whole' distinct distinct' start put (fun old here used => absurd (free old here) used)
      fun _ => other

theorem lookup_clear (put : entries data' = putEntry (entries data) x de') (clear : de'.inum = 0)
    (here : (entries data)[x]? = some de) (used : de.inum ≠ 0) (name : Bytes) :
    lookup data' name = if key name = key de.name then none else lookup data name := by
  have start : x ≤ (entries data).length := (List.getElem?_eq_some_iff.1 here).1.le
  split
  · rename_i same
    refine (lookup_eq_none_iff whole').2 fun y a there used' same' => ?_
    rw [put, getElem?_putEntry start] at there
    split at there
    · cases there
      exact used' clear
    · rename_i apart
      exact apart (distinct y x a de there here used' used (same'.symm.trans same))
  · rename_i other
    refine lookup_other whole whole' distinct distinct' start put (fun old there _ => ?_) (absurd clear)
    cases here.symm.trans there
    exact other

end Write

end Map

end MiniOS
