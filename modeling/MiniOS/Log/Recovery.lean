import MiniOS.Lib.DiskProg
import MiniOS.Log.Header

namespace MiniOS

open Lib DiskProg Function

/-- Code of the log that reads and writes the disk. -/
abbrev LogProg := DiskProg Nat Block

/-- The blocks from `log.start` on that belong to the log. -/
structure LogArea where
  start : Nat
  size : Nat

def LogArea.Inside (log : LogArea) (b : Nat) : Prop := log.start ≤ b ∧ b < log.start + log.size

namespace LogArea

/-- The loop of `write_log`. The blocks of a transaction are in the buffer
cache, which is why their contents come from `cached`. -/
def writeLog (log : LogArea) (cached : Nat → Block) : Nat → List (BitVec 32) → LogProg Unit
  | _, [] => pure ()
  | tail, b :: rest => do
    writeBlock (log.start + tail + 1) (cached b.toNat)
    log.writeLog cached (tail + 1) rest

/-- The loop of `install_trans`. -/
def installTrans (log : LogArea) : Nat → List (BitVec 32) → LogProg Unit
  | _, [] => pure ()
  | tail, b :: rest => do
    let lbuf ← readBlock (log.start + tail + 1)
    writeBlock b.toNat lbuf
    log.installTrans (tail + 1) rest

variable (log : LogArea)

def readHead : LogProg (List (BitVec 32)) := do
  let buf ← readBlock log.start
  return headerBlocks buf

def writeHead (lh : List (BitVec 32)) : LogProg Unit := do
  let buf ← readBlock log.start
  writeBlock log.start (putHeader buf lh)

def recoverFromLog : LogProg Unit := do
  let lh ← log.readHead
  log.installTrans 0 lh
  log.writeHead []

def commit (cached : Nat → Block) (lh : List (BitVec 32)) : LogProg Unit :=
  if lh.length > 0 then do
    log.writeLog cached 0 lh
    log.writeHead lh
    log.installTrans 0 lh
    log.writeHead []
  else pure ()

end LogArea

/-- The transaction `lh` fits the log and has no block of the log area. -/
structure LogArea.Fits (log : LogArea) (lh : List (BitVec 32)) : Prop where
  room : lh.length ≤ log.size - 1
  header : lh.length ≤ logsize
  nonempty : 0 < log.size
  outside : ∀ b ∈ lh, ¬log.Inside b.toNat

/-- The disk after a transaction: its blocks have their cached contents. -/
def installed (cached old : Nat → Block) (lh : List (BitVec 32)) (b : Nat) : Block :=
  if b ∈ lh.map BitVec.toNat then cached b else old b

/-- The log is empty and the blocks outside of it are those of `old`. -/
structure LogArea.Clean (log : LogArea) (old disk : Nat → Block) : Prop where
  count : headerCount (disk log.start) = 0
  home : ∀ b, ¬log.Inside b → disk b = old b

/-- The first `n` blocks of the transaction are in the log. -/
def LogArea.Copies (log : LogArea) (cached : Nat → Block) (lh : List (BitVec 32)) (n : Nat)
    (disk : Nat → Block) : Prop :=
  ∀ i < n, ∀ b, lh[i]? = some b → disk (log.start + i + 1) = cached b.toNat

/-- The first `n` blocks of the transaction are in their home locations. -/
def Installed (cached : Nat → Block) (lh : List (BitVec 32)) (n : Nat) (disk : Nat → Block) : Prop :=
  ∀ i < n, ∀ b, lh[i]? = some b → disk b.toNat = cached b.toNat

/-- The log holds the transaction, which may be installed in part. -/
structure LogArea.Committed (log : LogArea) (cached old : Nat → Block) (lh : List (BitVec 32))
    (disk : Nat → Block) : Prop where
  blocks : headerBlocks (disk log.start) = lh
  copies : log.Copies cached lh lh.length disk
  home : ∀ b, ¬log.Inside b → disk b = old b ∨ disk b = installed cached old lh b

namespace LogArea

variable {log : LogArea} {cached old disk : Nat → Block} {lh : List (BitVec 32)} {tail : Nat} {v : Block}
  {i : Nat} {b : BitVec 32} {rest : List (BitVec 32)}

theorem Fits.inside (fits : log.Fits lh) (less : i < lh.length) : log.Inside (log.start + i + 1) := by
  have := fits.room
  have := fits.nonempty
  exact ⟨by omega, by omega⟩

theorem Fits.start_inside (fits : log.Fits lh) : log.Inside log.start := by
  have := fits.nonempty
  exact ⟨Nat.le_refl _, by omega⟩

theorem lt_length (entry : lh[i]? = some b) : i < lh.length := by
  obtain ⟨less, _⟩ := List.getElem?_eq_some_iff.1 entry
  exact less

theorem head_of_drop (split : lh.drop tail = b :: rest) :
    lh[tail]? = some b ∧ lh.drop (tail + 1) = rest := by
  have entry : (lh.drop tail)[0]? = some b := by rw [split]; rfl
  rw [List.getElem?_drop] at entry
  refine ⟨entry, ?_⟩
  rw [← List.drop_drop, split]
  rfl

theorem update_log (fits : log.Fits lh) (less : i < lh.length) {b : Nat} (outside : ¬log.Inside b) :
    update disk (log.start + i + 1) v b = disk b := by
  refine update_of_ne ?_ _ _
  rintro rfl
  exact outside (fits.inside less)

/-- Until the header is written, nothing outside the log changes. -/
theorem writeLog_triple (cached old : Nat → Block) (fits : log.Fits lh)
    (split : lh.drop tail = rest) :
    Triple (fun disk => log.Clean old disk ∧ log.Copies cached lh tail disk) (log.writeLog cached tail rest)
      (fun _ disk => log.Clean old disk ∧ log.Copies cached lh lh.length disk) (log.Clean old) := by
  induction rest generalizing tail with
  | nil =>
    refine .of_done (fun disk start => ⟨start.1, fun i less b entry => start.2 i ?_ b entry⟩) fun _ => And.left
    have := List.drop_eq_nil_iff.1 split
    omega
  | cons b rest ih =>
    obtain ⟨entry, split'⟩ := head_of_drop split
    have less := lt_length entry
    refine .of_write (fun disk start => start.1) (fun disk start => ?_) (ih split')
    obtain ⟨clean, copies⟩ := start
    refine ⟨⟨?_, fun x outside => ?_⟩, fun i below c entry' => ?_⟩
    · rw [update_of_ne (by omega)]
      exact clean.count
    · rw [update_log fits less outside]
      exact clean.home x outside
    · by_cases last : i = tail
      · subst last
        rw [entry] at entry'
        cases entry'
        exact update_self ..
      · rw [update_of_ne (by omega)]
        exact copies i (by omega) c entry'

theorem installTrans_triple (fits : log.Fits lh) (split : lh.drop tail = rest) :
    Triple (fun disk => log.Committed cached old lh disk ∧ Installed cached lh tail disk) (log.installTrans tail rest)
      (fun _ disk => log.Committed cached old lh disk ∧ Installed cached lh lh.length disk)
      (log.Committed cached old lh) := by
  induction rest generalizing tail with
  | nil =>
    refine .of_done (fun disk start => ⟨start.1, fun i less b entry => start.2 i ?_ b entry⟩) fun _ => And.left
    have := List.drop_eq_nil_iff.1 split
    omega
  | cons b rest ih =>
    obtain ⟨entry, split'⟩ := head_of_drop split
    have less := lt_length entry
    have member : b ∈ lh := List.mem_of_getElem? entry
    have outside := fits.outside b member
    refine .of_read fun lbuf => .of_write (fun disk start => start.1.1) (fun disk start => ?_) (ih split')
    obtain ⟨⟨committed, done⟩, rfl⟩ := start
    have copy : disk (log.start + tail + 1) = cached b.toNat := committed.copies tail less b entry
    rw [copy]
    have kept : ∀ x, log.Inside x → update disk b.toNat (cached b.toNat) x = disk x := by
      intro x inside
      refine update_of_ne ?_ _ _
      rintro rfl
      exact outside inside
    refine ⟨⟨?_, fun i below c entry' => ?_, fun x apart => ?_⟩, fun i below c entry' => ?_⟩
    · rw [kept _ fits.start_inside]
      exact committed.blocks
    · rw [kept _ (fits.inside below)]
      exact committed.copies i below c entry'
    · by_cases same : x = b.toNat
      · right
        rw [same, update_self, installed, if_pos (List.mem_map.2 ⟨b, member, rfl⟩)]
      · rw [update_of_ne same]
        exact committed.home x apart
    · by_cases same : c.toNat = b.toNat
      · rw [same, update_self]
      · rw [update_of_ne same]
        refine done i (Nat.lt_of_le_of_ne (Nat.le_of_lt_succ below) fun last => same ?_) c entry'
        rw [last, entry] at entry'
        cases entry'
        rfl

theorem writeHead_triple {pre post crashed : (Nat → Block) → Prop} (stop : ∀ disk, pre disk → crashed disk)
    (moves : ∀ disk, pre disk → post (update disk log.start (putHeader (disk log.start) lh)))
    (stop' : ∀ disk, post disk → crashed disk) : Triple pre (log.writeHead lh) (fun _ => post) crashed := by
  refine .of_read fun buf => .of_write (fun disk start => stop disk start.1) (fun disk start => ?_)
    (.of_done (fun _ => id) stop')
  obtain ⟨start, rfl⟩ := start
  exact moves disk start

/-- Clearing the header of a log whose transaction is installed. -/
theorem Committed.clear (fits : log.Fits lh) (committed : log.Committed cached old lh disk)
    (done : Installed cached lh lh.length disk) :
    log.Clean (installed cached old lh) (update disk log.start (putHeader (disk log.start) [])) := by
  refine ⟨?_, fun b outside => ?_⟩
  · rw [update_self]
    exact headerCount_putHeader (Nat.zero_le _)
  · rw [update_of_ne (fun same => outside (by rw [same]; exact fits.start_inside))]
    by_cases member : b ∈ lh.map BitVec.toNat
    · obtain ⟨c, inside, rfl⟩ := List.mem_map.1 member
      obtain ⟨i, less, entry⟩ := List.mem_iff_getElem.1 inside
      rw [installed, if_pos member]
      exact done i less c (List.getElem?_eq_some_iff.2 ⟨less, entry⟩)
    · have same : installed cached old lh b = old b := if_neg member
      have home := committed.home b outside
      rw [same, or_self] at home
      rw [same, home]

theorem install_and_clear_triple (fits : log.Fits lh) :
    Triple (log.Committed cached old lh) (log.installTrans 0 lh >>= fun _ => log.writeHead [])
      (fun _ => log.Clean (installed cached old lh))
      (fun disk => log.Committed cached old lh disk ∨ log.Clean (installed cached old lh) disk) := by
  refine .bind ((installTrans_triple fits rfl).weaken (fun disk start => ⟨start, fun i less => by omega⟩)
    (fun _ _ => id) fun _ => .inl) fun _ => ?_
  exact writeHead_triple (fun disk start => .inl start.1) (fun disk start => start.1.clear fits start.2)
    fun _ => .inr

theorem recoverFromLog_eq : log.recoverFromLog =
    .read log.start fun buf => log.installTrans 0 (headerBlocks buf) >>= fun _ => log.writeHead [] := rfl

/-- Recovery with an empty log. -/
theorem recover_clean_triple (nonempty : 0 < log.size) :
    Triple (log.Clean old) log.recoverFromLog (fun _ => log.Clean old) (log.Clean old) := by
  rw [recoverFromLog_eq]
  refine .of_read fun buf => ?_
  by_cases zero : headerCount buf = 0
  · rw [headerBlocks_of_zero zero]
    refine writeHead_triple (fun _ start => start.1) (fun disk start => ⟨?_, fun b outside => ?_⟩) fun _ => id
    · rw [update_self]
      exact headerCount_putHeader (Nat.zero_le _)
    · rw [update_of_ne (fun same => outside ⟨by omega, by omega⟩)]
      exact start.1.home b outside
  · rintro disk ⟨clean, rfl⟩
    exact absurd clean.count zero

/-- Recovery with a transaction in the log. It may find a part of the
transaction installed, or all of it when an earlier recovery got that far. -/
theorem recover_committed_triple (fits : log.Fits lh) :
    Triple (fun disk => log.Committed cached old lh disk ∨ log.Clean (installed cached old lh) disk)
      log.recoverFromLog (fun _ => log.Clean (installed cached old lh))
      (fun disk => log.Committed cached old lh disk ∨ log.Clean (installed cached old lh) disk) := by
  rintro disk (committed | clean)
  · obtain ⟨finish, crashes⟩ := install_and_clear_triple fits disk committed
    rw [← committed.blocks] at finish crashes
    rw [← committed.blocks, recoverFromLog_eq]
    exact ⟨finish, crashes⟩
  · obtain ⟨finish, crashes⟩ := recover_clean_triple fits.nonempty disk clean
    exact ⟨finish, fun n => .inr (crashes n)⟩

/-- Writing the header commits the transaction. -/
theorem Clean.commits (fits : log.Fits lh) (clean : log.Clean old disk)
    (copies : log.Copies cached lh lh.length disk) :
    log.Committed cached old lh (update disk log.start (putHeader (disk log.start) lh)) := by
  refine ⟨?_, fun i less b entry => ?_, fun b outside => ?_⟩
  · rw [update_self]
    exact headerBlocks_putHeader fits.header
  · rw [update_of_ne (by omega)]
    exact copies i less b entry
  · rw [update_of_ne (fun same => outside (by rw [same]; exact fits.start_inside))]
    exact .inl (clean.home b outside)

theorem writeLog_written (rest : List (BitVec 32)) (disk : Nat → Block) :
    (log.writeLog cached tail rest).written disk = List.range' (log.start + tail + 1) rest.length := by
  induction rest generalizing tail disk with
  | nil => rfl
  | cons b rest ih => exact congrArg (_ :: ·) (ih (update disk (log.start + tail + 1) (cached b.toNat)))

theorem commit_eq (some : lh ≠ []) : log.commit cached lh =
    (log.writeLog cached 0 lh >>= fun _ => .read log.start fun buf => .write log.start (putHeader buf lh)
      (log.installTrans 0 lh >>= fun _ => log.writeHead [])) :=
  if_pos (List.length_pos_iff.2 some)

/-- The state of the log after a crash of `commit`. `write_log` writes as many
blocks as the transaction has, so the next write is that of the header. -/
theorem Clean.commit_crash (fits : log.Fits lh) (clean : log.Clean old disk) (cached : Nat → Block) (k : Nat) :
    if lh.length < k then
      log.Committed cached old lh ((log.commit cached lh).crash disk k) ∨
        log.Clean (installed cached old lh) ((log.commit cached lh).crash disk k)
    else log.Clean old ((log.commit cached lh).crash disk k) := by
  by_cases none : lh = []
  · subst none
    have nothing : installed cached old [] = old := rfl
    have same : (log.commit cached []).crash disk k = disk := rfl
    rw [nothing, same]
    split
    · exact .inr clean
    · exact clean
  obtain ⟨⟨logged, copies⟩, crashes⟩ := writeLog_triple cached old fits (List.drop_zero (l := lh)) disk
    ⟨clean, fun i less => absurd less (Nat.not_lt_zero i)⟩
  have length : ((log.writeLog cached 0 lh).written disk).length = lh.length := by
    rw [writeLog_written, List.length_range']
  rw [commit_eq none]
  by_cases early : k < lh.length
  · rw [if_neg (by omega), crash_bind_early _ _ (by omega)]
    exact crashes k
  obtain ⟨late, rfl⟩ := Nat.exists_eq_add_of_le (Nat.le_of_not_lt early)
  have split := crash_bind_late (log.writeLog cached 0 lh) (fun _ => .read log.start fun buf =>
    .write log.start (putHeader buf lh) (log.installTrans 0 lh >>= fun _ => log.writeHead [])) (s := disk) late
  rw [length] at split
  rw [split]
  cases late with
  | zero =>
    rw [if_neg (by omega)]
    exact logged
  | succ late =>
    rw [if_pos (by omega)]
    exact (install_and_clear_triple fits _ (logged.commits fits copies)).2 late

end LogArea

/-- Whenever `commit` crashes and however often recovery crashes after that,
the transaction is in the end on the disk as a whole or not at all. The first
write of the header decides which; it is the one after the
`lh.length` writes of `write_log`. -/
theorem commit_crash_atomic {log : LogArea} {lh : List (BitVec 32)} (fits : log.Fits lh)
    {disk after : Nat → Block} (empty : headerCount (disk log.start) = 0) (cached : Nat → Block) (k : Nat)
    (recovers : Restarts log.recoverFromLog ((log.commit cached lh).crash disk k) after) :
    headerCount (after log.start) = 0 ∧ ∀ b, ¬log.Inside b →
      after b = if lh.length < k ∧ b ∈ lh.map BitVec.toNat then cached b else disk b := by
  have clean : log.Clean disk disk := ⟨empty, fun _ _ => rfl⟩
  have crash := clean.commit_crash fits cached k
  by_cases reached : lh.length < k
  · rw [if_pos reached] at crash
    obtain ⟨count, home⟩ := (LogArea.recover_committed_triple fits).restarts crash recovers
    refine ⟨count, fun b outside => ?_⟩
    rw [home b outside, installed]
    simp only [reached, true_and]
  · rw [if_neg reached] at crash
    obtain ⟨count, home⟩ := (LogArea.recover_clean_triple fits.nonempty).restarts crash recovers
    refine ⟨count, fun b outside => ?_⟩
    rw [home b outside, if_neg (fun both => reached both.1)]

/-- A transaction of two blocks whose header got to the disk, and a recovery
that crashes once. -/
theorem commit_crash_atomic_two_blocks :
    let log : LogArea := ⟨2, 30⟩
    let cached : Nat → Block := fun b _ => BitVec.ofNat 8 b
    let crashed := (log.commit cached [40, 41]).crash (fun _ _ => 0) 3
    ∃ after, Restarts log.recoverFromLog crashed after ∧ headerCount (after 2) = 0 ∧ ∀ b, ¬log.Inside b →
      after b = if 2 < 3 ∧ b ∈ [40, 41] then cached b else fun _ => 0 := by
  have fits : LogArea.Fits ⟨2, 30⟩ [40, 41] :=
    ⟨by decide, by decide, by decide, by simp [LogArea.Inside]⟩
  exact ⟨_, .again _ _ 1 (.finish _), commit_crash_atomic fits rfl _ 3 (.again _ _ 1 (.finish _))⟩

end MiniOS
