import MiniOS.Fs.DirOps

namespace MiniOS

/-- The entries of a directory, used or free. -/
def entries (data : Bytes) : List Dirent := (List.range (data.length / 16)).map fun x => direntAt data (16 * x)

/-- The entries with `de` at index `x`, which is an old one or the one behind the last. -/
def putEntry (es : List Dirent) (x : Nat) (de : Dirent) : List Dirent :=
  if x < es.length then es.set x de else es ++ [de]

section Entries

variable {data name : Bytes} {de de' : Dirent} {es : List Dirent} {x y : Nat}

theorem entries_length : (entries data).length = data.length / 16 := by
  rw [entries, List.length_map, List.length_range]

theorem entries_nil : entries [] = [] := List.eq_nil_of_length_eq_zero entries_length

theorem getElem?_entries (y : Nat) : (entries data)[y]? = if y < data.length / 16 then some
    (direntAt data (16 * y)) else none := by
  rw [entries, List.getElem?_map]
  split
  · rw [List.getElem?_range (by assumption)]
    rfl
  · rw [List.getElem?_eq_none (by rw [List.length_range]; omega)]
    rfl

theorem getElem?_putEntry (start : x ≤ es.length) (y : Nat) :
    (putEntry es x de)[y]? = if y = x then some de else es[y]? := by
  rw [putEntry]
  split
  · rw [List.getElem?_set]
    by_cases here : y = x
    · subst here
      rw [if_pos rfl, if_pos rfl, if_pos (by assumption)]
    · rw [if_neg (Ne.symm here), if_neg here]
  · have last : x = es.length := by omega
    subst last
    rcases Nat.lt_trichotomy y es.length with less | rfl | more
    · rw [List.getElem?_append_left less, if_neg (by omega)]
    · rw [List.getElem?_append_right Nat.le.refl, if_pos rfl, Nat.sub_self]
      rfl
    · rw [if_neg (by omega), List.getElem?_eq_none (by rw [List.length_append, List.length_singleton]; omega),
        List.getElem?_eq_none (by omega)]

theorem Dirent.ofBytes_toBytes (de : Dirent) : Dirent.ofBytes de.toBytes = de := by
  obtain ⟨inum, name⟩ := de
  simp only [Dirent.toBytes, Dirent.ofBytes, List.getD_cons_succ, List.getD_cons_zero,
    List.drop_succ_cons, List.drop_zero,
    Dirent.mk.injEq, and_true]
  ext z bound
  simp only [BitVec.getElem_append, BitVec.getElem_extractLsb']
  split
  · simp only [Nat.zero_add]
    rw [BitVec.getLsbD_eq_getElem bound]
  · rw [show 8 + (z - 8) = z by omega, BitVec.getLsbD_eq_getElem bound]

theorem direntAt_congr {data' : Bytes} {off off' : Nat} (same : ∀ z < 16, data'[off' + z]? = data[off + z]?) :
    direntAt data' off' = direntAt data off := by
  rw [direntAt, direntAt]
  congr 1
  refine List.ext_getElem? fun z => ?_
  simp only [List.getElem?_take, List.getElem?_drop]
  split
  · exact same z (by assumption)
  · rfl

theorem entries_write (name : de.name.length = 14) (start : x ≤ data.length / 16) :
    entries (overwrite data (16 * x) de.toBytes) = putEntry (entries data) x de := by
  have length := Dirent.toBytes_length name
  have inside : 16 * x ≤ data.length := by omega
  refine List.ext_getElem? fun y => ?_
  rw [getElem?_putEntry (by rwa [entries_length]), getElem?_entries, getElem?_entries,
    overwrite_length inside, length]
  by_cases here : y = x
  · subst here
    rw [if_pos (by omega), if_pos rfl, ← Dirent.ofBytes_toBytes de]
    congr 1
    rw [direntAt]
    congr 1
    refine List.ext_getElem? fun z => ?_
    rw [List.getElem?_take, List.getElem?_drop, getElem?_overwrite inside, Dirent.ofBytes_toBytes, length]
    by_cases less : z < 16
    · rw [if_pos less, if_pos (by omega), Nat.add_sub_cancel_left]
    · rw [if_neg less, List.getElem?_eq_none (by omega)]
  · rw [if_neg here]
    by_cases old : y < data.length / 16
    · rw [if_pos (by omega), if_pos old]
      congr 1
      exact direntAt_congr fun z less => by rw [getElem?_overwrite inside, if_neg (by omega)]
    · rw [if_neg (by omega), if_neg old]

theorem direntAt_mem_entries {off : Nat} (aligned : off % 16 = 0) (whole : off + 16 ≤ data.length) :
    direntAt data off ∈ entries data := by
  refine List.mem_map.2 ⟨off / 16, List.mem_range.2 (by omega), ?_⟩
  rw [show 16 * (off / 16) = off by omega]

theorem mem_entries (whole : data.length % 16 = 0) :
    de ∈ entries data ↔ ∃ off ∈ direntOffs data.length 0, direntAt data off = de := by
  simp only [entries, List.mem_map, List.mem_range, mem_direntOffs whole]
  constructor
  · rintro ⟨x, below, same⟩
    exact ⟨16 * x, ⟨x, Nat.zero_le x, by omega, rfl⟩, same⟩
  · rintro ⟨_, ⟨x, -, below, rfl⟩, same⟩
    exact ⟨x, by omega, same⟩

theorem lookup_eq_none (whole : data.length % 16 = 0) :
    lookup data name = none ↔ ∀ de ∈ entries data, de.inum ≠ 0 → namecmp name de.name = false := by
  rw [lookup, Option.map_eq_none_iff, List.find?_eq_none]
  simp only [decide_eq_true_eq, not_and, Bool.not_eq_true, mem_entries whole]
  constructor
  · rintro none _ ⟨off, mem, rfl⟩ used
    exact none off mem used
  · exact fun none off mem used => none _ ⟨off, mem, rfl⟩ used

/-- What `lookup` finds is an entry that is used and has the name. -/
theorem lookup_entry {j off : Nat} (whole : data.length % 16 = 0) (found : lookup data name = some (j, off)) :
    ∃ x de, off = 16 * x ∧ (entries data)[x]? = some de ∧ de.inum ≠ 0 ∧ namecmp name de.name = true ∧
    de.inum.toNat = j := by
  obtain ⟨mem, used, same, number⟩ := lookup_eq_some found
  obtain ⟨x, -, below, rfl⟩ := (mem_direntOffs whole).1 mem
  exact ⟨x, _, rfl, by rw [getElem?_entries, if_pos (by omega)], used, same, number⟩

/-- The place for a new entry is behind the last one or has a free entry. -/
theorem freeOff_entry (data : Bytes) (whole : data.length % 16 = 0) :
    ∃ x, freeOff data = 16 * x ∧ x ≤ (entries data).length ∧ ∀ de, (entries data)[x]? = some de → de.inum = 0 := by
  rw [freeOff, entries_length]
  cases found : (direntOffs data.length 0).find? fun off => (direntAt data off).inum = 0 with
  | none =>
    refine ⟨(data.length + 15) / 16, rfl, by omega, fun de here => ?_⟩
    rw [getElem?_entries, if_neg (by omega)] at here
    cases here
  | some off =>
    obtain ⟨x, -, below, rfl⟩ := (mem_direntOffs whole).1 (List.mem_of_find?_eq_some found)
    refine ⟨x, rfl, by omega, fun de here => ?_⟩
    rw [getElem?_entries, if_pos (by omega)] at here
    cases here
    simpa using List.find?_some found

end Entries

end MiniOS
