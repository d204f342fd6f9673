import MiniOS.Bio.Cached

namespace MiniOS

open Bcache Function

/-- The blocks of the transaction that are not in their home locations yet. -/
def pending (log : Log) : Option CommitStage → List (BitVec 32)
  | some (.installTrans tail) => log.lh.drop tail
  | _ => log.lh

theorem drop_of_getElem? {lh : List (BitVec 32)} {tail : Nat} {blockno : BitVec 32}
    (here : lh[tail]? = some blockno) :
    lh.drop tail = blockno :: lh.drop (tail + 1) := by
  obtain ⟨less, same⟩ := List.getElem?_eq_some_iff.1 here
  rw [List.drop_eq_getElem_cons less, same]

theorem pending_first (log : Log) (lh : List (BitVec 32)) : pending log (some (.first lh)) = log.lh := by
  unfold CommitStage.first
  split
  · rfl
  · rfl

/-- What `commit` can rely on at each stage. -/
def StageInv (log : Log) (disk : Nat → Block) (a : PlainStore) : Option CommitStage → Prop
  | none => True
  | some (.writeLog tail) => log.lh ≠ [] ∧ log.Copies a.current log.lh tail disk
  | some (.installTrans _) => log.lh ≠ [] ∧ log.Copies a.current log.lh log.lh.length disk ∧ a.committed = a.current
  | some .clear => log.lh = [] ∧ 0 < log.size
  | some .finished => log.lh = []

/-- How the disk, the cached blocks and the log make up a plain store. A block
of the transaction that is not installed yet is pinned in the cache, and every
other block is up to date on the disk. -/
structure Coherent (log : Log) (stage : Option CommitStage) (disk : Nat → Block)
    (entry : Nat → Option (Block × Bool)) (a : PlainStore) : Prop where
  outside : ∀ b ∈ log.lh, ¬log.Inside b.toNat
  nodup : log.lh.Nodup
  room : log.lh = [] ∨ log.lh.length < log.size
  current : ∀ n v dirty, ¬log.Inside n → entry n = some (v, dirty) → v = a.current n
  pinned : ∀ b ∈ pending log stage, ∃ v, entry b.toNat = some (v, true)
  clean : ∀ n, ¬log.Inside n → (∀ b ∈ pending log stage, b.toNat ≠ n) → disk n = a.current n
  home : ∀ n, ¬log.Inside n → disk n = a.home n
  logged : ∀ n v dirty, log.Inside n → entry n = some (v, dirty) → v = disk n
  stages : StageInv log disk a stage

namespace Coherent

variable {log : Log} {stage : Option CommitStage} {disk : Nat → Block} {entry entry' : Nat → Option (Block × Bool)}
  {a : PlainStore} {tail n : Nat} {blockno : BitVec 32} {v : Block} {dirty : Bool}

theorem start_inside (co : Coherent log stage disk entry a) (nonempty : log.lh ≠ []) : log.Inside log.start := by
  have := co.room.resolve_left nonempty
  exact ⟨Nat.le_refl _, by omega⟩

theorem inside (co : Coherent log stage disk entry a) (at' : log.lh[tail]? = some blockno) :
    log.Inside (log.start + tail + 1) := by
  obtain ⟨less, _⟩ := List.getElem?_eq_some_iff.1 at'
  have := co.room.resolve_left (List.ne_nil_of_length_pos (by omega))
  exact ⟨by omega, by omega⟩

theorem mem_pending (member : blockno ∈ pending log stage) : blockno ∈ log.lh := by
  unfold pending at member
  split at member
  · exact List.mem_of_mem_drop member
  · exact member

theorem evict (co : Coherent log stage disk entry a) (evicts : Evicts entry entry') :
    Coherent log stage disk entry' a := by
  have kept : ∀ n v dirty, entry' n = some (v, dirty) → entry n = some (v, dirty) := by
    intro n v dirty cached
    rcases evicts n with same | ⟨gone, _⟩
    · rwa [same] at cached
    · rw [gone] at cached
      cases cached
  refine ⟨co.outside, co.nodup, co.room, fun n v dirty apart cached => co.current n v dirty apart
    (kept n v dirty cached),
    fun b member => ?_, co.clean, co.home, fun n v dirty within cached => co.logged n v dirty within
    (kept n v dirty cached),
    co.stages⟩
  obtain ⟨v, cached⟩ := co.pinned b member
  rcases evicts b.toNat with same | ⟨_, v', clean⟩
  · exact ⟨v, same.trans cached⟩
  · rw [clean] at cached
    cases cached

/-- A block that is read from the disk is up to date. -/
theorem load (co : Coherent log stage disk entry a) (missing : ∀ v dirty, entry n ≠ some (v, dirty)) :
    Coherent log stage disk (update entry n (some (disk n, false))) a := by
  have other : ∀ b ∈ pending log stage, b.toNat ≠ n := by
    intro b member same
    obtain ⟨v, cached⟩ := co.pinned b member
    exact missing v true (same ▸ cached)
  refine ⟨co.outside, co.nodup, co.room, fun m v dirty apart cached => ?_, fun b member => ?_, co.clean, co.home,
    fun m v dirty within cached => ?_, co.stages⟩
  · by_cases here : m = n
    · subst here
      rw [update_self] at cached
      cases cached
      exact co.clean m apart other
    · rw [update_of_ne here] at cached
      exact co.current m v dirty apart cached
  · rw [update_of_ne (other b member)]
    exact co.pinned b member
  · by_cases here : m = n
    · subst here
      rw [update_self] at cached
      cases cached
      rfl
    · rw [update_of_ne here] at cached
      exact co.logged m v dirty within cached

/-- A modification that is logged is pinned in the cache. -/
theorem modify (co : Coherent log none disk entry a) (outside : ¬log.Inside blockno.toNat)
    (tests : logWriteTests log = .ok ()) :
    Coherent (logWriteLocked log blockno) none disk (update entry blockno.toNat (some (v, true)))
      { a with current := update a.current blockno.toNat v } := by
  have short : (log.lh.length : Int) < log.size - 1 := by
    unfold logWriteTests at tests
    split at tests
    · cases tests
    · omega
  refine ⟨fun b member => ?_, nodup_absorb co.nodup, .inr ?_, fun m w dirty apart cached => ?_, fun b member => ?_,
    fun m apart other => ?_, co.home, fun m w dirty within cached => ?_, trivial⟩
  · rcases mem_absorb.1 member with rfl | old
    · exact outside
    · exact co.outside b old
  · have := length_absorb_le blockno log.lh
    simp only [logWriteLocked]
    omega
  · change w = update a.current blockno.toNat v m
    by_cases here : m = blockno.toNat
    · subst here
      rw [update_self] at cached ⊢
      cases cached
      rfl
    · rw [update_of_ne here] at cached ⊢
      exact co.current m w dirty apart cached
  · by_cases here : b.toNat = blockno.toNat
    · rw [here]
      exact ⟨v, update_self ..⟩
    · rw [update_of_ne here]
      exact co.pinned b ((mem_absorb.1 member).resolve_left fun same => here (congrArg _ same))
  · have here : m ≠ blockno.toNat := Ne.symm (other blockno (mem_absorb.2 (.inl rfl)))
    change disk m = update a.current blockno.toNat v m
    rw [update_of_ne here]
    exact co.clean m apart fun b member => other b (mem_absorb.2 (.inr member))
  · have here : m ≠ blockno.toNat := fun here => outside (here ▸ within)
    rw [update_of_ne here] at cached
    exact co.logged m w dirty within cached

/-- A block of the log area is written through to the disk. -/
theorem writeThrough (co : Coherent log stage disk entry a) (within : log.Inside n) {stage' : Option CommitStage}
    {a' : PlainStore} (same : pending log stage' = pending log stage) (current : a'.current = a.current)
    (home : a'.home = a.home) (stages : StageInv log (update disk n v) a' stage') :
    Coherent log stage' (update disk n v) (update entry n (some (v, false))) a' := by
  have apart : ∀ m, ¬log.Inside m → m ≠ n := fun m outside here => outside (here ▸ within)
  refine ⟨co.outside, co.nodup, co.room, fun m w dirty outside cached => ?_, fun b member => ?_,
    fun m outside other => ?_, fun m outside => ?_, fun m w dirty within' cached => ?_, stages⟩
  · rw [update_of_ne (apart m outside)] at cached
    rw [current]
    exact co.current m w dirty outside cached
  · rw [same] at member
    rw [update_of_ne (apart b.toNat (co.outside b (mem_pending member)))]
    exact co.pinned b member
  · rw [update_of_ne (apart m outside), current]
    rw [same] at other
    exact co.clean m outside other
  · rw [update_of_ne (apart m outside), home]
    exact co.home m outside
  · by_cases here : m = n
    · subst here
      rw [update_self] at cached ⊢
      cases cached
      rfl
    · rw [update_of_ne here] at cached ⊢
      exact co.logged m w dirty within' cached

theorem writeLog (co : Coherent log (some (.writeLog tail)) disk entry a) (here : log.lh[tail]? = some blockno)
    (cached : entry blockno.toNat = some (v, dirty)) :
    Coherent log (some (.writeLog (tail + 1))) (update disk (log.start + tail + 1) v)
      (update entry (log.start + tail + 1) (some (v, false))) a := by
  have outside := co.outside blockno (List.mem_of_getElem? here)
  refine co.writeThrough (co.inside here) rfl rfl rfl ⟨co.stages.1, fun j below b entry' => ?_⟩
  by_cases last : j = tail
  · subst last
    rw [here] at entry'
    cases entry'
    rw [update_self]
    exact co.current _ _ _ outside cached
  · rw [update_of_ne (by omega)]
    exact co.stages.2 j (by omega) b entry'

/-- Writing the header commits the transaction. -/
theorem writeHead (co : Coherent log (some (.writeLog tail)) disk entry a) (all : tail ≥ log.lh.length) :
    Coherent log (some (.installTrans 0)) (update disk log.start v)
      (update entry log.start (some (v, false))) { a with committed := a.current } := by
  obtain ⟨nonempty, copies⟩ := co.stages
  refine co.writeThrough (co.start_inside nonempty) rfl rfl rfl ⟨nonempty, fun j below b entry' => ?_, rfl⟩
  rw [update_of_ne (by omega)]
  exact copies j (by omega) b entry'

section

variable (co : Coherent log (some (.installTrans tail)) disk entry a)
include co

/-- The log has what the transaction committed. -/
theorem log_block (here : log.lh[tail]? = some blockno)
    (cached : entry (log.start + tail + 1) = some (v, dirty)) : v = a.committed blockno.toNat := by
  obtain ⟨_, copies, same⟩ := co.stages
  obtain ⟨less, _⟩ := List.getElem?_eq_some_iff.1 here
  rw [co.logged _ _ _ (co.inside here) cached, copies tail less blockno here, same]

theorem installTrans
    (here : log.lh[tail]? = some blockno) :
    Coherent log (some (.installTrans (tail + 1))) (update disk blockno.toNat (a.committed blockno.toNat))
      (update entry blockno.toNat (some (a.committed blockno.toNat, false)))
      { a with home := update a.home blockno.toNat (a.committed blockno.toNat) } := by
  obtain ⟨nonempty, copies, same⟩ := co.stages
  have outside := co.outside blockno (List.mem_of_getElem? here)
  have split := drop_of_getElem? here
  have fresh : blockno ∉ log.lh.drop (tail + 1) := by
    have nodup := co.nodup.sublist (List.drop_sublist tail log.lh)
    rw [split] at nodup
    exact (List.nodup_cons.1 nodup).1
  refine ⟨co.outside, co.nodup, co.room, fun m w dirty apart cached => ?_, fun b member => ?_,
    fun m apart other => ?_, fun m apart => ?_, fun m w dirty within cached => ?_, nonempty,
    fun j below b at' => ?_, same⟩
  · by_cases here : m = blockno.toNat
    · subst here
      rw [update_self] at cached
      cases cached
      rw [same]
    · rw [update_of_ne here] at cached
      exact co.current m w dirty apart cached
  · have ne : b.toNat ≠ blockno.toNat := fun here => fresh (BitVec.eq_of_toNat_eq here ▸ member)
    rw [update_of_ne ne]
    refine co.pinned b ?_
    change b ∈ log.lh.drop tail
    rw [split]
    exact .tail _ member
  · by_cases here : m = blockno.toNat
    · subst here
      rw [update_self, same]
    · rw [update_of_ne here]
      refine co.clean m apart fun b member => ?_
      change b ∈ log.lh.drop tail at member
      rw [split] at member
      rcases List.mem_cons.1 member with rfl | later
      · exact Ne.symm here
      · exact other b later
  · change _ = update a.home blockno.toNat (a.committed blockno.toNat) m
    by_cases here : m = blockno.toNat
    · subst here
      rw [update_self, update_self]
    · rw [update_of_ne here, update_of_ne here]
      exact co.home m apart
  · have here : m ≠ blockno.toNat := fun here => outside (here ▸ within)
    rw [update_of_ne here] at cached ⊢
    exact co.logged m w dirty within cached
  · have apart : log.start + j + 1 ≠ blockno.toNat := fun here => outside (here ▸ co.inside at')
    rw [update_of_ne apart]
    exact copies j below b at'

theorem erase (all : tail ≥ log.lh.length) :
    Coherent { log with lh := [] } (some .clear) disk entry a := by
  obtain ⟨nonempty, _⟩ := co.stages
  have none : pending log (some (.installTrans tail)) = [] := List.drop_eq_nil_of_le all
  refine ⟨by simp, List.nodup_nil, .inl rfl, co.current, by simp [pending], fun m apart _ => co.clean m apart ?_,
    co.home, co.logged, rfl, Nat.lt_of_le_of_lt (Nat.zero_le _) (co.room.resolve_left nonempty)⟩
  rw [none]
  simp

end

theorem clear (co : Coherent log (some .clear) disk entry a) :
    Coherent log (some .finished) (update disk log.start v)
      (update entry log.start (some (v, false))) a :=
  co.writeThrough ⟨Nat.le_refl _, Nat.lt_add_of_pos_right co.stages.2⟩ rfl rfl rfl co.stages.1

theorem finish (co : Coherent log (some .finished) disk entry a) :
    Coherent { log with committing := false } none disk entry a :=
  ⟨co.outside, co.nodup, co.room, co.current, co.pinned, co.clean, co.home, co.logged, trivial⟩

theorem start (co : Coherent log none disk entry a) (outstanding : Int) (committing : Bool) :
    Coherent { log with outstanding := outstanding, committing := committing }
    (some (.first log.lh)) disk entry a := by
  have same := pending_first { log with outstanding := outstanding, committing := committing } log.lh
  refine ⟨co.outside, co.nodup, co.room, co.current, fun b member => ?_, fun m apart other => ?_,
    co.home, co.logged, ?_⟩
  · rw [same] at member
    exact co.pinned b member
  · rw [same] at other
    exact co.clean m apart other
  unfold CommitStage.first
  split
  · rename_i positive
    exact ⟨List.ne_nil_of_length_pos positive, fun j below => absurd below (Nat.not_lt_zero j)⟩
  · rename_i none
    exact List.eq_nil_of_length_eq_zero (Nat.eq_zero_of_not_pos none)

end Coherent

end MiniOS
