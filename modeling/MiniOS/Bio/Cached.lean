import MiniOS.Bio.System

namespace MiniOS

open Function

variable {disksize pid : Nat} {disk disk' : Nat → Block} {b b' : Buf}

/-- A buffer has valid data of block `n` of disk 1. -/
def Bcache.Cached (c : Bcache) (n : Nat) (v : Block) (dirty : Bool) : Prop :=
  ∃ i, (c.buf i).dev = 1 ∧ (c.buf i).blockno.toNat = n ∧ (c.buf i).valid = true ∧ (c.buf i).data = v ∧
    (c.buf i).dirty = dirty

/-- The cache seen as a partial map from blocks to their data and their dirty flag. -/
def Bcache.Entries (c : Bcache) (entry : Nat → Option (Block × Bool)) : Prop :=
  ∀ n v dirty, entry n = some (v, dirty) ↔ c.Cached n v dirty

/-- The number of processes that use a buffer without having its lock. -/
def Bcache.uses (waiting : Multiset Waiter) (leaving : Multiset (Fin nbuf)) (i : Fin nbuf) : Nat :=
  waiting.countP (·.idx = i) + leaving.count i

/-- What the cache keeps up whatever the processes do with it. Every process
that waits for a buffer, holds it or is about to leave it counts in `refcnt`. -/
structure Bcache.Inv (c : Bcache) (waiting : Multiset Waiter) (leaving : Multiset (Fin nbuf)) : Prop where
  listed : ∀ i, i ∈ c.list
  unique : ∀ i j, (c.buf i).dev = 1 → (c.buf j).dev = 1 → (c.buf i).blockno = (c.buf j).blockno → i = j
  device : ∀ i, (c.buf i).valid = true → (c.buf i).dev = 1
  clean : ∀ i, (c.buf i).dirty = true → (c.buf i).valid = true
  held : ∀ i, (c.buf i).holder ≠ none → (c.buf i).valid = true
  named : ∀ w ∈ waiting, (c.buf w.idx).dev = w.dev ∧ (c.buf w.idx).blockno = w.blockno
  count : ∀ i, (c.buf i).refcnt = uses waiting leaving i + if (c.buf i).holder = none then 0 else 1

/-- The two buffers are for the same block. -/
structure Buf.SameBlock (b b' : Buf) : Prop where
  dev : b'.dev = b.dev
  blockno : b'.blockno = b.blockno

/-- The two buffers have the same data for the same block. -/
structure Buf.SameData (b b' : Buf) : Prop extends Buf.SameBlock b b' where
  valid : b'.valid = b.valid
  dirty : b'.dirty = b.dirty
  data : b'.data = b.data

namespace Bcache

variable {c : Bcache} {i j : Fin nbuf} {b : Buf} {entry : Nat → Option (Block × Bool)} {waiting : Multiset Waiter}
  {leaving : Multiset (Fin nbuf)} {w : Waiter} {c' : Bcache} {dev blockno : BitVec 32}

@[simp] theorem set_buf_self (c : Bcache) (i : Fin nbuf) (b : Buf) : (c.set i b).buf i = b := update_self ..

theorem set_set (c : Bcache) (i : Fin nbuf) (b b' : Buf) : (c.set i b).set i b' = c.set i b' := by
  simp only [set, update_idem]

theorem set_buf_ne (ne : j ≠ i) : (c.set i b).buf j = c.buf j := update_of_ne ne ..

theorem Entries.congr (entries : c.Entries entry) (same : ∀ i, (c.buf i).SameData (c'.buf i)) :
    c'.Entries entry := by
  intro n v dirty
  rw [entries]
  refine exists_congr fun i => ?_
  rw [(same i).dev, (same i).blockno, (same i).valid, (same i).data, (same i).dirty]

theorem sameData_set (same : (c.buf i).SameData b) (j : Fin nbuf) : (c.buf j).SameData ((c.set i b).buf j) := by
  by_cases here : j = i
  · subst here
    rwa [set_buf_self]
  · rw [set_buf_ne here]
    exact ⟨⟨rfl, rfl⟩, rfl, rfl, rfl⟩

/-- The data of a buffer changes. -/
theorem Entries.set (entries : c.Entries entry) (inv : c.Inv waiting leaving) (same : (c.buf i).SameBlock b)
    (valid : b.valid = true) (dev : b.dev = 1) :
    (c.set i b).Entries (update entry b.blockno.toNat (some (b.data, b.dirty))) := by
  intro n v dirty
  by_cases here : n = b.blockno.toNat
  · subst here
    rw [update_self, Option.some.injEq, Prod.mk.injEq]
    constructor
    · rintro ⟨rfl, rfl⟩
      exact ⟨i, by simp [dev, valid]⟩
    · rintro ⟨j, devj, blockno, _, data, flag⟩
      by_cases other : j = i
      · subst other
        rw [set_buf_self] at data flag
        exact ⟨data, flag⟩
      · rw [set_buf_ne other] at devj blockno
        refine absurd (inv.unique j i devj (same.dev ▸ dev) ?_) other
        rw [← same.blockno]
        exact BitVec.eq_of_toNat_eq blockno
  · rw [update_of_ne here, entries]
    refine exists_congr fun j => ?_
    by_cases other : j = i
    · subst other
      rw [set_buf_self, ← same.blockno]
      simp [Ne.symm here]
    · rw [set_buf_ne other]

/-- Some blocks that are not dirty may be dropped. -/
def Evicts (entry entry' : Nat → Option (Block × Bool)) : Prop :=
  ∀ n, entry' n = entry n ∨ (entry' n = none ∧ ∃ v, entry n = some (v, false))

/-- A buffer is taken for another block. -/
theorem Entries.recycle (entries : c.Entries entry) (inv : c.Inv waiting leaving) (clean : (c.buf i).dirty = false)
    (invalid : b.valid = false) : ∃ entry', (c.set i b).Entries entry' ∧ Evicts entry entry' := by
  by_cases valid : (c.buf i).valid = true
  · have dev := inv.device i valid
    refine ⟨update entry (c.buf i).blockno.toNat none, fun n v dirty => ?_, fun n => ?_⟩
    · by_cases here : n = (c.buf i).blockno.toNat
      · subst here
        rw [update_self]
        refine iff_of_false (by simp) ?_
        rintro ⟨j, devj, blockno, validj, _, _⟩
        by_cases other : j = i
        · subst other
          rw [set_buf_self, invalid] at validj
          cases validj
        · rw [set_buf_ne other] at devj blockno
          exact other (inv.unique j i devj dev (BitVec.eq_of_toNat_eq blockno))
      · rw [update_of_ne here, entries]
        refine exists_congr fun j => ?_
        by_cases other : j = i
        · subst other
          rw [set_buf_self, invalid]
          simp [Ne.symm here]
        · rw [set_buf_ne other]
    · by_cases here : n = (c.buf i).blockno.toNat
      · subst here
        exact .inr ⟨update_self .., _, (entries _ _ _).2 ⟨i, dev, rfl, valid, rfl, clean⟩⟩
      · exact .inl (update_of_ne here ..)
  · refine ⟨entry, fun n v dirty => ?_, fun n => .inl rfl⟩
    rw [entries]
    refine exists_congr fun j => ?_
    by_cases other : j = i
    · subst other
      rw [set_buf_self, invalid]
      simp [valid]
    · rw [set_buf_ne other]

/-- A buffer changes that stays with its block. -/
theorem Inv.set {waiting' : Multiset Waiter} {leaving' : Multiset (Fin nbuf)} (inv : c.Inv waiting leaving)
    (same : (c.buf i).SameBlock b) (device : b.valid = true → b.dev = 1) (clean : b.dirty = true → b.valid = true)
    (held : b.holder ≠ none → b.valid = true) (named : ∀ w ∈ waiting', w ∈ waiting ∨
      ((c.buf w.idx).dev = w.dev ∧ (c.buf w.idx).blockno = w.blockno))
    (others : ∀ j ≠ i, uses waiting' leaving' j = uses waiting leaving j)
    (count : b.refcnt = uses waiting' leaving' i + if b.holder = none then 0 else 1) :
    (c.set i b).Inv waiting' leaving' := by
  have sameBlock : ∀ j, (c.buf j).SameBlock ((c.set i b).buf j) := by
    intro j
    by_cases here : j = i
    · subst here
      rwa [set_buf_self]
    · rw [set_buf_ne here]
      exact ⟨rfl, rfl⟩
  refine ⟨inv.listed, fun j k => ?_, fun j => ?_, fun j => ?_, fun j => ?_, fun w member => ?_, fun j => ?_⟩
  · rw [(sameBlock j).dev, (sameBlock k).dev, (sameBlock j).blockno, (sameBlock k).blockno]
    exact inv.unique j k
  · by_cases here : j = i
    · subst here
      rwa [set_buf_self]
    · rw [set_buf_ne here]
      exact inv.device j
  · by_cases here : j = i
    · subst here
      rwa [set_buf_self]
    · rw [set_buf_ne here]
      exact inv.clean j
  · by_cases here : j = i
    · subst here
      rwa [set_buf_self]
    · rw [set_buf_ne here]
      exact inv.held j
  · rw [(sameBlock w.idx).dev, (sameBlock w.idx).blockno]
    exact (named w member).elim (inv.named w) id
  · by_cases here : j = i
    · subst here
      rwa [set_buf_self]
    · rw [set_buf_ne here]
      exact (inv.count j).trans (congrArg (· + _) (others j here).symm)

theorem uses_waiting (w : Waiter) (j : Fin nbuf) :
    uses (w ::ₘ waiting) leaving j = uses waiting leaving j + if w.idx = j then 1 else 0 := by
  rw [uses, Multiset.countP_cons, uses]
  omega

theorem uses_leaving (i j : Fin nbuf) :
    uses waiting (i ::ₘ leaving) j = uses waiting leaving j + if j = i then 1 else 0 := by
  rw [uses, Multiset.count_cons, uses]
  omega

theorem bget_hit (inv : c.Inv waiting leaving) (entries : c.Entries entry) (pid : Nat) :
    (c.set i { c.buf i with refcnt := (c.buf i).refcnt + 1 }).Inv
      (⟨pid, i, (c.buf i).dev, (c.buf i).blockno⟩ ::ₘ waiting) leaving ∧
    (c.set i { c.buf i with refcnt := (c.buf i).refcnt + 1 }).Entries entry := by
  refine ⟨inv.set ⟨rfl, rfl⟩ (inv.device i) (inv.clean i) (inv.held i) (fun w member => ?_) (fun j other => ?_) ?_,
    entries.congr (sameData_set ⟨⟨rfl, rfl⟩, rfl, rfl, rfl⟩)⟩
  · rcases Multiset.mem_cons.1 member with rfl | old
    · exact .inr ⟨rfl, rfl⟩
    · exact .inl old
  · rw [uses_waiting, if_neg (Ne.symm other), Nat.add_zero]
  · have count := inv.count i
    rw [uses_waiting, if_pos rfl]
    simp only [count]
    omega

/-- Nobody uses a buffer with `refcnt` zero. -/
theorem Inv.unused (inv : c.Inv waiting leaving) (zero : (c.buf i).refcnt = 0) :
    uses waiting leaving i = 0 ∧ (c.buf i).holder = none ∧ ∀ w ∈ waiting, w.idx ≠ i := by
  have count := inv.count i
  rw [zero, eq_comm, Nat.add_eq_zero_iff] at count
  obtain ⟨none, free⟩ := count
  refine ⟨none, ?_, fun w member => ?_⟩
  · by_contra held
    rw [if_neg held] at free
    cases free
  · exact Multiset.countP_eq_zero.1 (Nat.add_eq_zero_iff.1 none).1 w member

theorem bget_recycle (inv : c.Inv waiting leaving) (entries : c.Entries entry) (pid : Nat)
    (missing : ∀ j, ¬((c.buf j).dev = dev ∧ (c.buf j).blockno = blockno)) (unused : (c.buf i).refcnt = 0)
    (clean : (c.buf i).dirty = false) (set : c' = c.set i { c.buf i with
      dev := dev, blockno := blockno, valid := false, dirty := false, refcnt := 1 }) :
    c'.Inv (⟨pid, i, dev, blockno⟩ ::ₘ waiting) leaving ∧ ∃ entry', c'.Entries entry' ∧ Evicts entry entry' := by
  subst set
  obtain ⟨none, free, apart⟩ := inv.unused unused
  refine ⟨⟨inv.listed, fun j k => ?_, fun j valid => ?_, fun j dirty => ?_, fun j held => ?_, fun w member => ?_,
    fun j => ?_⟩, entries.recycle inv clean rfl⟩
  · intro devj devk same
    by_cases herej : j = i <;> by_cases herek : k = i
    · exact herej.trans herek.symm
    · subst herej
      rw [set_buf_self] at devj same
      rw [set_buf_ne herek] at devk same
      exact absurd ⟨devk.trans devj.symm, same.symm⟩ (missing k)
    · subst herek
      rw [set_buf_self] at devk same
      rw [set_buf_ne herej] at devj same
      exact absurd ⟨devj.trans devk.symm, same⟩ (missing j)
    · rw [set_buf_ne herej] at devj same
      rw [set_buf_ne herek] at devk same
      exact inv.unique j k devj devk same
  · by_cases here : j = i
    · subst here
      rw [set_buf_self] at valid
      cases valid
    · rw [set_buf_ne here] at valid ⊢
      exact inv.device j valid
  · by_cases here : j = i
    · subst here
      rw [set_buf_self] at dirty
      cases dirty
    · rw [set_buf_ne here] at dirty ⊢
      exact inv.clean j dirty
  · by_cases here : j = i
    · subst here
      rw [set_buf_self] at held
      exact absurd free held
    · rw [set_buf_ne here] at held ⊢
      exact inv.held j held
  · rcases Multiset.mem_cons.1 member with rfl | old
    · rw [set_buf_self]
      exact ⟨rfl, rfl⟩
    · rw [set_buf_ne (apart w old)]
      exact inv.named w old
  · rw [uses_waiting]
    by_cases here : j = i
    · subst here
      rw [set_buf_self, none, if_pos rfl, if_pos free]
    · rw [set_buf_ne here, if_neg (Ne.symm here), Nat.add_zero]
      exact inv.count j

/-- `bget` finds the block in a buffer, or recycles the last buffer of the list that can be. -/
theorem bget_cases (call : bget c dev blockno = .ok (c', i)) :
    ((c.buf i).dev = dev ∧ (c.buf i).blockno = blockno ∧
      c' = c.set i { c.buf i with refcnt := (c.buf i).refcnt + 1 }) ∨
    ((∀ j ∈ c.list, ¬((c.buf j).dev = dev ∧ (c.buf j).blockno = blockno)) ∧ (c.buf i).refcnt = 0 ∧
      (c.buf i).dirty = false ∧
      (∃ l l', c.list = l ++ i :: l' ∧ ∀ j ∈ l', ¬((c.buf j).refcnt = 0 ∧ (c.buf j).dirty = false)) ∧
      c' = c.set i { c.buf i with dev := dev, blockno := blockno, valid := false, dirty := false, refcnt := 1 }) := by
  unfold bget at call
  split at call
  · rename_i j found
    cases call
    have hit := List.find?_some found
    rw [decide_eq_true_eq] at hit
    exact .inl ⟨hit.1, hit.2, rfl⟩
  · rename_i missing
    split at call
    · rename_i j found
      cases call
      obtain ⟨free, l', l, split, after⟩ := List.find?_eq_some_iff_append.1 found
      rw [decide_eq_true_eq] at free
      refine .inr ⟨fun j member => ?_, free.1, free.2, ⟨l.reverse, l'.reverse, ?_, fun j member => ?_⟩, rfl⟩
      · have absent := List.find?_eq_none.1 missing j member
        rwa [decide_eq_true_eq] at absent
      · rw [← List.reverse_reverse c.list, split, List.reverse_append, List.reverse_cons, List.append_assoc]
        rfl
      · have used := after j (List.mem_reverse.1 member)
        rwa [Bool.not_eq_true', decide_eq_false_iff_not] at used
    · cases call

/-- Without such a buffer `bget` panics. -/
theorem bget_ok_or_panic (listed : ∀ i, i ∈ c.list) (dev blockno : BitVec 32) :
    (∃ out, bget c dev blockno = .ok out) ∧
      ((∃ j, (c.buf j).dev = dev ∧ (c.buf j).blockno = blockno) ∨
        ∃ j, (c.buf j).refcnt = 0 ∧ (c.buf j).dirty = false) ∨
    bget c dev blockno = .error (.panic "bget: no buffers") ∧
      (∀ j, ¬((c.buf j).dev = dev ∧ (c.buf j).blockno = blockno)) ∧
      ∀ j, ¬((c.buf j).refcnt = 0 ∧ (c.buf j).dirty = false) := by
  unfold bget
  split
  · rename_i j found
    have hit := List.find?_some found
    rw [decide_eq_true_eq] at hit
    exact .inl ⟨⟨_, rfl⟩, .inl ⟨j, hit⟩⟩
  · rename_i missing
    split
    · rename_i j found
      have free := List.find?_some found
      rw [decide_eq_true_eq] at free
      exact .inl ⟨⟨_, rfl⟩, .inr ⟨j, free⟩⟩
    · rename_i used
      refine .inr ⟨rfl, fun j => ?_, fun j => ?_⟩
      · have absent := List.find?_eq_none.1 missing j (listed j)
        rwa [decide_eq_true_eq] at absent
      · have kept := List.find?_eq_none.1 used j (List.mem_reverse.2 (listed j))
        rwa [decide_eq_true_eq] at kept

theorem bget_spec (inv : c.Inv waiting leaving) (entries : c.Entries entry)
    (pid : Nat) (call : bget c dev blockno = .ok (c', i)) :
    c'.Inv (⟨pid, i, dev, blockno⟩ ::ₘ waiting) leaving ∧ ∃ entry', c'.Entries entry' ∧ Evicts entry entry' := by
  rcases bget_cases call with ⟨rfl, rfl, rfl⟩ | ⟨missing, unused, clean, _, set⟩
  · obtain ⟨inv', entries'⟩ := bget_hit inv entries pid
    exact ⟨inv', entry, entries', fun n => .inl rfl⟩
  · exact bget_recycle inv entries pid (fun j => missing j (inv.listed j)) unused clean set

end Bcache

theorem iderw_spec (call : iderw disksize pid disk b = .ok (disk', b')) : b.dev = 1 ∧ b.holder = some pid ∧
      (disk', b') = if b.dirty then (update disk b.blockno.toNat b.data, { b with dirty := false, valid := true })
        else (disk, { b with data := disk b.blockno.toNat, valid := true }) := by
  unfold iderw at call
  split at call
  · cases call
  split at call
  · cases call
  split at call
  · cases call
  split at call
  · cases call
  rename_i locked _ dev _
  refine ⟨not_not.1 dev, not_not.1 locked, ?_⟩
  split at call
  · rename_i dirty
    rw [if_pos dirty, Except.ok.inj call]
  · rename_i dirty
    rw [if_neg dirty, Except.ok.inj call]

theorem bwrite_spec (call : bwrite disksize pid disk b = .ok (disk', b')) :
    disk' = update disk b.blockno.toNat b.data ∧ b' = { b with dirty := false, valid := true } := by
  unfold bwrite at call
  split at call
  · cases call
  · obtain ⟨_, _, result⟩ := iderw_spec call
    rw [if_pos rfl] at result
    exact ⟨congrArg Prod.fst result, congrArg Prod.snd result⟩

/-- `bread` takes the data of the buffer if it is valid, and else that of the disk. -/
theorem breadLocked_spec (clean : b.dirty = true → b.valid = true)
    (call : breadLocked disksize pid disk b = .ok (disk', b')) :
    disk' = disk ∧ (b.valid = true ∧ b' = { b with holder := some pid } ∨
      b.valid = false ∧ b.dev = 1 ∧
        b' = { b with holder := some pid, data := disk b.blockno.toNat, valid := true, dirty := false }) := by
  unfold breadLocked at call
  split at call
  · rename_i valid
    cases call
    exact ⟨rfl, .inl ⟨valid, rfl⟩⟩
  · rename_i invalid
    obtain ⟨dev, _, result⟩ := iderw_spec call
    have notDirty : b.dirty = false := Bool.eq_false_iff.2 fun dirty => invalid (clean dirty)
    rw [if_neg (by simp only [notDirty]; decide)] at result
    refine ⟨congrArg Prod.fst result, .inr ⟨Bool.eq_false_iff.2 invalid, dev, ?_⟩⟩
    rw [← notDirty]
    exact congrArg Prod.snd result

theorem brelseUnlock_spec (call : brelseUnlock pid b = .ok b') :
    b.holder = some pid ∧ b' = { b with holder := none } := by
  unfold brelseUnlock at call
  split at call
  · cases call
  · rename_i held
    cases call
    exact ⟨not_not.1 held, rfl⟩

namespace Bcache

variable {c : Bcache} {i : Fin nbuf} {b : Buf} {entry : Nat → Option (Block × Bool)} {waiting : Multiset Waiter}
  {leaving : Multiset (Fin nbuf)}

/-- A process that waits gets the lock. -/
theorem Inv.lock {w : Waiter} (inv : c.Inv (w ::ₘ waiting) leaving) (free : (c.buf w.idx).holder = none)
    (same : (c.buf w.idx).SameBlock b) (valid : b.valid = true) (dev : b.dev = 1) (locked : b.holder ≠ none)
    (refcnt : b.refcnt = (c.buf w.idx).refcnt) : (c.set w.idx b).Inv waiting leaving := by
  refine inv.set same (fun _ => dev) (fun _ => valid) (fun _ => valid)
    (fun w' member => .inl (Multiset.mem_cons_of_mem member)) (fun j other => ?_) ?_
  · rw [uses_waiting, if_neg (Ne.symm other), Nat.add_zero]
  · have count := inv.count w.idx
    rw [uses_waiting, if_pos rfl, if_pos free] at count
    rw [refcnt, count, if_neg locked]

theorem Inv.unlock (inv : c.Inv waiting leaving) (held : (c.buf i).holder ≠ none) :
    (c.set i { c.buf i with holder := none }).Inv waiting (i ::ₘ leaving) := by
  refine inv.set ⟨rfl, rfl⟩ (inv.device i) (inv.clean i) (by simp) (fun w => .inl) (fun j other => ?_) ?_
  · rw [uses_leaving, if_neg other, Nat.add_zero]
  · have count := inv.count i
    rw [if_neg held] at count
    rw [uses_leaving, if_pos rfl, if_pos rfl]
    exact count

theorem brelseLocked_buf (c : Bcache) (i : Fin nbuf) :
    (brelseLocked c i).buf = update c.buf i { c.buf i with refcnt := (c.buf i).refcnt - 1 } := by
  unfold brelseLocked
  dsimp only
  split
  · rfl
  · rfl

theorem mem_brelseLocked_list (listed : ∀ j, j ∈ c.list) (i j : Fin nbuf) : j ∈ (brelseLocked c i).list := by
  unfold brelseLocked
  dsimp only
  split
  · by_cases here : j = i
    · exact here ▸ List.mem_cons_self
    · exact .tail _ ((List.mem_erase_of_ne here).2 (listed j))
  · exact listed j

theorem Inv.drop (inv : c.Inv waiting (i ::ₘ leaving)) : (brelseLocked c i).Inv waiting leaving := by
  have dropped : (c.set i { c.buf i with refcnt := (c.buf i).refcnt - 1 }).Inv waiting leaving := by
    refine inv.set ⟨rfl, rfl⟩ (inv.device i) (inv.clean i) (inv.held i) (fun w => .inl) (fun j other => ?_) ?_
    · rw [uses_leaving, if_neg other, Nat.add_zero]
    · have count := inv.count i
      rw [uses_leaving, if_pos rfl] at count
      simp only [count]
      omega
  refine ⟨mem_brelseLocked_list inv.listed i, ?_, ?_, ?_, ?_, ?_, ?_⟩
  all_goals rw [brelseLocked_buf]
  · exact dropped.unique
  · exact dropped.device
  · exact dropped.clean
  · exact dropped.held
  · exact dropped.named
  · exact dropped.count

theorem Entries.drop (entries : c.Entries entry) (i : Fin nbuf) : (brelseLocked c i).Entries entry := by
  refine entries.congr fun j => ?_
  rw [brelseLocked_buf]
  exact sameData_set (c := c) (i := i) (b := { c.buf i with refcnt := (c.buf i).refcnt - 1 })
    ⟨⟨rfl, rfl⟩, rfl, rfl, rfl⟩ j

/-- The data of a buffer whose lock is held changes. -/
theorem Inv.write (inv : c.Inv waiting leaving) (held : (c.buf i).holder ≠ none) (same : (c.buf i).SameBlock b)
    (valid : b.valid = true) (holder : b.holder = (c.buf i).holder) (refcnt : b.refcnt = (c.buf i).refcnt) :
    (c.set i b).Inv waiting leaving := by
  have dev := inv.device i (inv.held i held)
  refine inv.set same (fun _ => same.dev.trans dev) (fun _ => valid) (fun _ => valid) (fun w => .inl)
    (fun _ _ => rfl) ?_
  rw [refcnt, holder]
  exact inv.count i

end Bcache

end MiniOS
