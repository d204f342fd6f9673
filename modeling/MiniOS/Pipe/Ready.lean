import MiniOS.Pipe.Fifo

namespace MiniOS

open Lib Relation Function

namespace PipePc

/-- The process wakes the readers before it gives up the lock, if the pipe stays open. -/
def wakesReaders : PipePc → Bool
  | writeTest _ _ => true
  | writeSignal _ _ => true
  | _ => false

/-- The process wakes the writers before it gives up the lock. -/
def wakesWriters : PipePc → Bool
  | readCopy _ _ => true
  | _ => false

/-- The process has found the pipe empty and is going to sleep. -/
def foundEmpty : PipePc → Bool
  | readSleep _ => true
  | _ => false

/-- The process has found the pipe full and is going to sleep. -/
def foundFull : PipePc → Bool
  | writeSignal _ _ => true
  | writeSleep _ _ => true
  | _ => false

end PipePc

namespace PipeSystem

variable {ι : Type} {s t : PipeSystem ι} {p : ι} {pc : PipePc}

/-- A reader has to wait. -/
def ReadWaits (s : PipeSystem ι) : Prop := s.Empty ∧ s.pipe.writeopen = true

/-- A writer has to wait. -/
def WriteWaits (s : PipeSystem ι) : Prop := s.Full ∧ s.pipe.readopen = true

/-- While the lock is free, only processes that have to wait sleep. -/
def SleepersWait (s : PipeSystem ι) : Prop :=
  s.lock = none → ∀ p, (s.asleep p = some .nread → s.ReadWaits) ∧ (s.asleep p = some .nwrite → s.WriteWaits)

/-- No process sleeps on `&p->nread`. -/
def NoReaderSleeps (s : PipeSystem ι) : Prop := ∀ p, s.asleep p ≠ some .nread

/-- Who sleeps has to wait, or the process with the lock is going to wake it. -/
structure Watched (s : PipeSystem ι) : Prop where
  lock : ∀ p, (s.pc p).inside = true ↔ s.lock = some p
  reader : ∀ p, s.asleep p = some .nread → s.ReadWaits ∨ ∃ q, s.lock = some q ∧ (s.pc q).wakesReaders = true
  writer : ∀ p, s.asleep p = some .nwrite → s.WriteWaits ∨ ∃ q, s.lock = some q ∧ (s.pc q).wakesWriters = true
  empty : ∀ p, (s.pc p).foundEmpty = true → s.ReadWaits
  full : ∀ p, (s.pc p).foundFull = true → s.WriteWaits

theorem Watched.sleepersWait (watched : s.Watched) : s.SleepersWait := by
  intro free p
  refine ⟨fun asleep => ?_, fun asleep => ?_⟩
  · rcases watched.reader p asleep with waits | ⟨q, taken, _⟩
    · exact waits
    · rw [free] at taken
      cases taken
  · rcases watched.writer p asleep with waits | ⟨q, taken, _⟩
    · exact waits
    · rw [free] at taken
      cases taken

theorem PipePc.inside_of_foundEmpty (found : pc.foundEmpty = true) : pc.inside = true := by
  cases pc <;> first | rfl | cases found

theorem PipePc.inside_of_foundFull (found : pc.foundFull = true) : pc.inside = true := by
  cases pc <;> first | rfl | cases found

namespace Watched

variable {q : ι} {chan : PipeChan} {n : Nat}

/-- A process is woken or killed, which changes nothing for the others. -/
theorem fewer (watched : s.Watched) (pipe : t.pipe = s.pipe) (lock : t.lock = s.lock) (pc : t.pc = s.pc)
    (asleep : ∀ q chan, t.asleep q = some chan → s.asleep q = some chan) : t.Watched := by
  have readWaits : t.ReadWaits ↔ s.ReadWaits := by rw [ReadWaits, ReadWaits, Empty, Empty, pipe]
  have writeWaits : t.WriteWaits ↔ s.WriteWaits := by rw [WriteWaits, WriteWaits, Full, Full, pipe]
  refine ⟨?_, fun q sleeps => ?_, fun q sleeps => ?_, ?_, ?_⟩
  · rw [pc, lock]
    exact watched.lock
  · rw [readWaits, lock, pc]
    exact watched.reader q (asleep q _ sleeps)
  · rw [writeWaits, lock, pc]
    exact watched.writer q (asleep q _ sleeps)
  · rw [pc, readWaits]
    exact watched.empty
  · rw [pc, writeWaits]
    exact watched.full

theorem asleep_of_wakeup {woken : PipeChan} (sleeps : (s.wakeup woken).asleep q = some chan) :
    s.asleep q = some chan ∧ chan ≠ woken := by
  simp only [wakeup] at sleeps
  split at sleeps
  · cases sleeps
  · rename_i other
    exact ⟨sleeps, fun same => other (same ▸ sleeps)⟩

/-- One end is closed, and those that wait for the other end are woken. -/
theorem close (watched : s.Watched) (free : s.lock = none) (writable : Bool) : (s.close writable).Watched := by
  have waits := watched.sleepersWait free
  have outside : ∀ q, (s.pc q).inside = false := by
    intro q
    by_contra inside
    have taken := (watched.lock q).1 (by simpa using inside)
    rw [free] at taken
    cases taken
  have notEmpty : ∀ q, (s.pc q).foundEmpty ≠ true := fun q found => by
    have inside := PipePc.inside_of_foundEmpty found
    rw [outside] at inside
    cases inside
  have notFull : ∀ q, (s.pc q).foundFull ≠ true := fun q found => by
    have inside := PipePc.inside_of_foundFull found
    rw [outside] at inside
    cases inside
  cases writable with
  | true =>
    refine ⟨watched.lock, fun q sleeps => ?_, fun q sleeps => ?_, fun q found => absurd found (notEmpty q),
      fun q found => absurd found (notFull q)⟩
    · exact absurd rfl (asleep_of_wakeup sleeps).2
    · exact .inl ((waits q).2 (asleep_of_wakeup sleeps).1)
  | false =>
    refine ⟨watched.lock, fun q sleeps => ?_, fun q sleeps => ?_, fun q found => absurd found (notEmpty q),
      fun q found => absurd found (notFull q)⟩
    · exact .inl ((waits q).1 (asleep_of_wakeup sleeps).1)
    · exact absurd rfl (asleep_of_wakeup sleeps).2

/-- The process with the lock is not going to wake the readers, so they have to wait. -/
theorem reader_waits (watched : s.Watched) (inside : (s.pc p).inside = true) (silent : (s.pc p).wakesReaders = false)
    (sleeps : s.asleep q = some .nread) : s.ReadWaits := by
  rcases watched.reader q sleeps with waits | ⟨r, taken, wakes⟩
  · exact waits
  · cases taken.symm.trans ((watched.lock p).1 inside)
    rw [silent] at wakes
    cases wakes

theorem writer_waits (watched : s.Watched) (inside : (s.pc p).inside = true) (silent : (s.pc p).wakesWriters = false)
    (sleeps : s.asleep q = some .nwrite) : s.WriteWaits := by
  rcases watched.writer q sleeps with waits | ⟨r, taken, wakes⟩
  · exact waits
  · cases taken.symm.trans ((watched.lock p).1 inside)
    rw [silent] at wakes
    cases wakes

variable [DecidableEq ι] {pc : PipePc}

section

variable (watched : s.Watched)
include watched

theorem lock_update (p : ι) (pc : PipePc) (alone : ∀ q, q ≠ p → s.lock ≠ some q)
    (lock : t.lock = some p ↔ pc.inside = true) (mine : ∀ q, t.lock = some q → q = p)
    (goes : t.pc = update s.pc p pc) (q : ι) :
    (t.pc q).inside = true ↔ t.lock = some q := by
  rw [goes]
  by_cases same : q = p
  · subst same
    rw [update_self, lock]
  · rw [update_of_ne same, watched.lock]
    exact ⟨fun taken => absurd taken (alone q same), fun taken => absurd (mine q taken) same⟩

/-- A process outside of the section goes on. -/
theorem outside (before : (s.pc p).inside = false) (after : pc.inside = false) : (s.goto p pc).Watched := by
  have away : s.lock ≠ some p := fun taken => by
    rw [(watched.lock p).2 taken] at before
    cases before
  have others : ∀ q, s.lock = some q → (s.goto p pc).pc q = s.pc q := fun q taken =>
    update_of_ne (fun same : q = p => away (same ▸ taken)) ..
  have found : ∀ q, ((s.goto p pc).pc q).inside = true → (s.goto p pc).pc q = s.pc q := by
    intro q inside
    refine update_of_ne (fun same => ?_) ..
    rw [same, show (s.goto p pc).pc p = pc from update_self .., after] at inside
    cases inside
  refine ⟨fun q => ?_, fun q asleep => ?_, fun q asleep => ?_, fun q here => ?_, fun q here => ?_⟩
  · by_cases same : q = p
    · subst same
      rw [show (s.goto q pc).pc q = pc from update_self .., after]
      exact ⟨nofun, fun taken => absurd taken away⟩
    · rw [show (s.goto p pc).pc q = s.pc q from update_of_ne same .., watched.lock]
      rfl
  · exact (watched.reader q asleep).imp id fun ⟨r, taken, wakes⟩ => ⟨r, taken, by rw [others r taken]; exact wakes⟩
  · exact (watched.writer q asleep).imp id fun ⟨r, taken, wakes⟩ => ⟨r, taken, by rw [others r taken]; exact wakes⟩
  · rw [found q (PipePc.inside_of_foundEmpty here)] at here
    exact watched.empty q here
  · rw [found q (PipePc.inside_of_foundFull here)] at here
    exact watched.full q here

/-- A process takes the lock. -/
theorem enters (free : s.lock = none) (after : pc.inside = true) (empty : pc.foundEmpty = false)
    (full : pc.foundFull = false) : ((s.acquire p).goto p pc).Watched := by
  have waits := watched.sleepersWait free
  have others : ∀ q, ((s.acquire p).goto p pc).pc q = if q = p then pc else s.pc q := fun q => update_apply ..
  refine ⟨watched.lock_update p pc (fun q _ => ?_) ⟨fun _ => after, fun _ => rfl⟩ (fun q same => ?_) rfl,
    fun q asleep => .inl ((waits q).1 asleep), fun q asleep => .inl ((waits q).2 asleep),
    fun q here => ?_, fun q here => ?_⟩
  · rw [free]
    nofun
  · exact (Option.some.inj same).symm
  · rw [others] at here
    split at here
    · rw [empty] at here
      cases here
    · exact watched.empty q here
  · rw [others] at here
    split at here
    · rw [full] at here
      cases here
    · exact watched.full q here

/-- The process with the lock goes on and keeps it. -/
theorem works (before : (s.pc p).inside = true) (after : pc.inside = true) (lock : t.lock = s.lock)
    (goes : t.pc = update s.pc p pc) (asleep : ∀ q chan, t.asleep q = some chan → s.asleep q = some chan)
    (reader : ∀ q, t.asleep q = some .nread → s.ReadWaits ∨ (s.pc p).wakesReaders = true → t.ReadWaits ∨
      pc.wakesReaders = true)
    (writer : ∀ q, t.asleep q = some .nwrite → s.WriteWaits ∨ (s.pc p).wakesWriters = true → t.WriteWaits ∨
      pc.wakesWriters = true)
    (empty : pc.foundEmpty = true → t.ReadWaits) (full : pc.foundFull = true → t.WriteWaits) : t.Watched := by
  have mine : s.lock = some p := (watched.lock p).1 before
  have owner : ∀ q, s.lock = some q → q = p := fun q taken => Option.some.inj (taken.symm.trans mine)
  have here : t.pc p = pc := by rw [goes, update_self]
  have other : ∀ q, q ≠ p → (t.pc q).inside = false := by
    intro q different
    rw [goes, update_of_ne different]
    by_contra inside
    exact different (owner q ((watched.lock q).1 (by simpa using inside)))
  refine ⟨watched.lock_update p pc (fun q different taken => different (owner q taken)) ⟨fun _ => after, fun _ => ?_⟩
    (fun q taken => owner q (lock ▸ taken)) goes, fun q sleeps => ?_, fun q sleeps => ?_,
    fun q found => ?_, fun q found => ?_⟩
  · rw [lock, mine]
  · refine (reader q sleeps ?_).imp id fun wakes => ⟨p, by rw [lock, mine], by rw [here]; exact wakes⟩
    exact (watched.reader q (asleep q _ sleeps)).imp id fun ⟨r, taken, wakes⟩ => owner r taken ▸ wakes
  · refine (writer q sleeps ?_).imp id fun wakes => ⟨p, by rw [lock, mine], by rw [here]; exact wakes⟩
    exact (watched.writer q (asleep q _ sleeps)).imp id fun ⟨r, taken, wakes⟩ => owner r taken ▸ wakes
  · by_cases same : q = p
    · rw [same, here] at found
      exact empty found
    · have inside := PipePc.inside_of_foundEmpty found
      rw [other q same] at inside
      cases inside
  · by_cases same : q = p
    · rw [same, here] at found
      exact full found
    · have inside := PipePc.inside_of_foundFull found
      rw [other q same] at inside
      cases inside

/-- The process with the lock gives it up. -/
theorem leaves (before : (s.pc p).inside = true) (after : pc.inside = false) (lock : t.lock = none)
    (goes : t.pc = update s.pc p pc) (reader : ∀ q, t.asleep q = some .nread → t.ReadWaits)
    (writer : ∀ q, t.asleep q = some .nwrite → t.WriteWaits) : t.Watched := by
  have mine : s.lock = some p := (watched.lock p).1 before
  have none_inside : ∀ q, (t.pc q).inside = false := by
    intro q
    rw [goes]
    by_cases same : q = p
    · rw [same, update_self, after]
    · rw [update_of_ne same]
      by_contra inside
      exact same (Option.some.inj (((watched.lock q).1 (by simpa using inside)).symm.trans mine))
  refine ⟨fun q => ?_, fun q sleeps => .inl (reader q sleeps), fun q sleeps => .inl (writer q sleeps),
    fun q found => ?_,
    fun q found => ?_⟩
  · rw [none_inside, lock]
    exact ⟨nofun, nofun⟩
  · have inside := PipePc.inside_of_foundEmpty found
    rw [none_inside] at inside
    cases inside
  · have inside := PipePc.inside_of_foundFull found
    rw [none_inside] at inside
    cases inside

end

theorem asleep_of_sleep {own : PipeChan} (sleeps : (s.sleep p own).asleep q = some chan) :
    (q = p ∧ chan = own) ∨ s.asleep q = some chan := by
  simp only [sleep] at sleeps
  by_cases same : q = p
  · subst same
    rw [update_self] at sleeps
    exact .inl ⟨rfl, (Option.some.inj sleeps).symm⟩
  · rw [update_of_ne same] at sleeps
    exact .inr sleeps

theorem asleep_of_kill (sleeps : (s.kill p).asleep q = some chan) : s.asleep q = some chan := by
  simp only [kill] at sleeps
  by_cases same : q = p
  · subst same
    rw [update_self] at sleeps
    cases sleeps
  · rwa [update_of_ne same] at sleeps

theorem readStep (watched : s.Watched) (here : s.pc p = .readSleep n) :
    ((s.sleep p .nread).goto p (.readWait n)).Watched := by
  have inside : (s.pc p).inside = true := by rw [here]; rfl
  refine watched.leaves inside rfl rfl rfl (fun q sleeps => ?_) fun q sleeps => ?_
  · rcases asleep_of_sleep sleeps with ⟨-, -⟩ | before
    · exact watched.empty p (by rw [here]; rfl)
    · exact watched.reader_waits inside (by rw [here]; rfl) before
  · rcases asleep_of_sleep sleeps with ⟨-, other⟩ | before
    · cases other
    · exact watched.writer_waits inside (by rw [here]; rfl) before

theorem writeStep (watched : s.Watched) {rest : Bytes} (here : s.pc p = .writeSleep n rest) :
    ((s.sleep p .nwrite).goto p (.writeWait n rest)).Watched := by
  have inside : (s.pc p).inside = true := by rw [here]; rfl
  refine watched.leaves inside rfl rfl rfl (fun q sleeps => ?_) fun q sleeps => ?_
  · rcases asleep_of_sleep sleeps with ⟨-, other⟩ | before
    · cases other
    · exact watched.reader_waits inside (by rw [here]; rfl) before
  · rcases asleep_of_sleep sleeps with ⟨-, -⟩ | before
    · exact watched.full p (by rw [here]; rfl)
    · exact watched.writer_waits inside (by rw [here]; rfl) before

theorem step {event : Option (PipeEvent ι)} (watched : s.Watched) (step : PipeStep NoReaderSleeps s event t) :
    t.Watched := by
  cases step with
  | callRead p n here =>
    have emptied : { s with buffer := update s.buffer p [] }.Watched := watched.fewer rfl rfl rfl fun _ _ => id
    exact emptied.outside (by rw [here]; rfl) rfl
  | readLock _ _ _ free | readWakes _ _ _ _ free | writeLock _ _ _ free | writeWakes _ _ _ _ _ free =>
    exact watched.enters free rfl rfl rfl
  | readBlocks p n here empty isOpen _ =>
    have inside : (s.pc p).inside = true := by rw [here]; rfl
    exact watched.works inside rfl rfl rfl (fun _ _ => id)
      (fun q sleeps _ => .inl (watched.reader_waits inside (by rw [here]; rfl) sleeps))
      (fun q sleeps _ => .inl (watched.writer_waits inside (by rw [here]; rfl) sleeps))
      (fun _ => ⟨empty, isOpen⟩) nofun
  | readKilled p n here _ _ _ =>
    have inside : (s.pc p).inside = true := by rw [here]; rfl
    exact watched.leaves inside rfl rfl rfl (fun q => watched.reader_waits inside (by rw [here]; rfl))
      fun q => watched.writer_waits inside (by rw [here]; rfl)
  | readSleep p n here => exact watched.readStep here
  | readReady p n here _ =>
    have inside : (s.pc p).inside = true := by rw [here]; rfl
    exact watched.works inside rfl rfl rfl (fun _ _ => id)
      (fun q sleeps _ => .inl (watched.reader_waits inside (by rw [here]; rfl) sleeps))
      (fun _ _ _ => .inr rfl) nofun nofun
  | readByte p n i here _ some =>
    have inside : (s.pc p).inside = true := by rw [here]; rfl
    exact watched.works inside rfl rfl rfl (fun _ _ => id)
      (fun q sleeps _ => absurd (watched.reader_waits inside (by rw [here]; rfl) sleeps).1 some)
      (fun _ _ _ => .inr rfl) nofun nofun
  | readDone p n i here _ =>
    have inside : (s.pc p).inside = true := by rw [here]; rfl
    exact watched.leaves inside rfl rfl rfl (fun q sleeps => watched.reader_waits inside (by rw [here]; rfl)
      (asleep_of_wakeup sleeps).1)
      fun q sleeps => absurd rfl (asleep_of_wakeup sleeps).2
  | callWrite p src here => exact watched.outside (by rw [here]; rfl) rfl
  | writeByte p n c rest here room =>
    have inside : (s.pc p).inside = true := by rw [here]; rfl
    exact watched.works inside rfl rfl rfl (fun _ _ => id) (fun _ _ _ => .inr rfl)
      (fun q sleeps _ => absurd (watched.writer_waits inside (by rw [here]; rfl) sleeps).1 room) nofun nofun
  | writeBlocks p n c rest here full stays =>
    have inside : (s.pc p).inside = true := by rw [here]; rfl
    exact watched.works inside rfl rfl rfl (fun _ _ => id) (fun _ _ _ => .inr rfl)
      (fun q sleeps _ => .inl (watched.writer_waits inside (by rw [here]; rfl) sleeps)) nofun
      fun _ => ⟨full, Bool.of_not_eq_false fun closed => stays (.inl closed)⟩
  | writeGivesUp p n c rest here _ _ heeded =>
    have inside : (s.pc p).inside = true := by rw [here]; rfl
    exact watched.leaves inside rfl rfl rfl (fun q sleeps => absurd sleeps (heeded q))
      fun q => watched.writer_waits inside (by rw [here]; rfl)
  | writeSignal p n rest here =>
    have inside : (s.pc p).inside = true := by rw [here]; rfl
    exact watched.works inside rfl rfl rfl (fun q chan sleeps => (asleep_of_wakeup sleeps).1)
      (fun q sleeps _ => absurd rfl (asleep_of_wakeup sleeps).2)
      (fun q sleeps _ => .inl (watched.writer_waits inside (by rw [here]; rfl) (asleep_of_wakeup sleeps).1)) nofun
      fun _ => watched.full p (by rw [here]; rfl)
  | writeSleep p n rest here => exact watched.writeStep here
  | writeDone p n here =>
    have inside : (s.pc p).inside = true := by rw [here]; rfl
    exact watched.leaves inside rfl rfl rfl (fun q sleeps => absurd rfl (asleep_of_wakeup sleeps).2)
      fun q sleeps => watched.writer_waits inside (by rw [here]; rfl) (asleep_of_wakeup sleeps).1
  | close writable free => exact watched.close free writable
  | kill p => exact watched.fewer rfl rfl rfl fun q chan => asleep_of_kill

omit [DecidableEq ι] in
theorem initial (data : Nat → BitVec 8) : (PipeSystem.initial ι data).Watched :=
  ⟨fun _ => ⟨nofun, nofun⟩, nofun, nofun, nofun, nofun⟩

end Watched

/-- As long as no `pipewrite` gives up while a process sleeps on `&p->nread`, no
process sleeps on a pipe that is ready for it. -/
theorem pipe_sleepers_wait [DecidableEq ι] {data : Nat → BitVec 8}
    (run : (PipeSystem.initial ι data).Run NoReaderSleeps s) :
    s.SleepersWait := by
  have watched : s.Watched := run_induction (fun watched ⟨_, last⟩ => watched.step last) (Watched.initial data) run
  exact watched.sleepersWait

/-- A reader sleeps until a byte is written. -/
theorem pipe_sleepers_wait_one_byte :
    ∃ s : PipeSystem (Fin 2), (PipeSystem.initial (Fin 2) fun _ => 0).Run NoReaderSleeps s ∧
    s.pc 0 = .readWait 5 ∧ s.asleep 0 = none ∧ s.SleepersWait := by
  have run : (PipeSystem.initial (Fin 2) fun _ => 0).Run NoReaderSleeps _ := .refl
  have run := run.tail ⟨_, .callRead 0 5 rfl⟩
  have run := run.tail ⟨_, .readLock 0 5 rfl rfl⟩
  have run := run.tail ⟨_, .readBlocks 0 5 rfl rfl rfl rfl⟩
  have run := run.tail ⟨_, .readSleep 0 5 rfl⟩
  have run := run.tail ⟨_, .callWrite 1 [7] rfl⟩
  have run := run.tail ⟨_, .writeLock 1 [7] rfl rfl⟩
  have run := run.tail ⟨_, .writeByte 1 1 7 [] rfl (by decide)⟩
  have run := run.tail ⟨_, .writeDone 1 1 rfl⟩
  exact ⟨_, run, rfl, rfl, pipe_sleepers_wait run⟩

/-- A writer with the lock fills the pipe. -/
theorem write_run [DecidableEq ι] {givesUp : PipeSystem ι → Prop} {n : Nat} {rest : Bytes}
    (src : Bytes) (s : PipeSystem ι) (here : s.pc p = .writeTest n (src ++ rest))
    (room : s.pipe.count + src.length ≤ pipesize) :
    ∃ t, s.Run givesUp t ∧ t.pc p = .writeTest n rest ∧ t.pipe.count = s.pipe.count + src.length ∧
    t.asleep = s.asleep ∧
      t.killed = s.killed ∧ t.pipe.writeopen = s.pipe.writeopen := by
  induction src generalizing s with
  | nil => exact ⟨s, .refl, here, rfl, rfl, rfl, rfl⟩
  | cons c src ih =>
    rw [List.length_cons] at room
    have notFull : ¬s.Full := fun full => by
      rw [Pipe.count_eq_size.2 full] at room
      omega
    have more := (Pipe.contents_write (Nat.le_trans (Nat.le_add_right ..) room) notFull c).2
    have count : ((s.writeByte c).goto p (.writeTest n (src ++ rest))).pipe.count = s.pipe.count + 1 := more
    obtain ⟨t, run, at_rest, total, asleep, killed, isOpen⟩ :=
      ih ((s.writeByte c).goto p (.writeTest n (src ++ rest))) (update_self ..) (by rw [count]; omega)
    refine ⟨t, .head ⟨_, .writeByte p n c (src ++ rest) here notFull⟩ run, at_rest, ?_, asleep, killed, isOpen⟩
    rw [total, count, List.length_cons]
    omega

/-- Process 0 sleeps in `piperead`, and process 1, which is killed inside of
`pipewrite`, fills the pipe and returns without waking it. -/
theorem killed_writer_wakes_nobody :
    ∃ s : PipeSystem (Fin 2), (PipeSystem.initial (Fin 2) fun _ => 0).Run (fun _ => True) s ∧
    s.lock = none ∧ s.asleep 0 = some .nread ∧ s.pipe.count = pipesize ∧ s.pipe.writeopen = true ∧
    ¬s.SleepersWait := by
  have enters : ∀ src : Bytes, ∃ s : PipeSystem (Fin 2),
    (PipeSystem.initial (Fin 2) fun _ => 0).Run (fun _ => True) s ∧
      s.pc 1 = .writeTest src.length src ∧ s.pipe.count = 0 ∧ s.asleep 0 = some .nread ∧ s.killed 1 = true ∧
        s.pipe.writeopen = true := by
    intro src
    have run : (PipeSystem.initial (Fin 2) fun _ => 0).Run (fun _ => True) _ := .refl
    have run := run.tail ⟨_, .callRead 0 1 rfl⟩
    have run := run.tail ⟨_, .readLock 0 1 rfl rfl⟩
    have run := run.tail ⟨_, .readBlocks 0 1 rfl rfl rfl rfl⟩
    have run := run.tail ⟨_, .readSleep 0 1 rfl⟩
    have run := run.tail ⟨_, .callWrite 1 src rfl⟩
    have run := run.tail ⟨_, .writeLock 1 src rfl rfl⟩
    have run := run.tail ⟨_, .kill 1⟩
    exact ⟨_, run, rfl, Pipe.count_eq_zero.mpr rfl, rfl, rfl, rfl⟩
  obtain ⟨s, run, ready, empty, sleeps, dead, opened⟩ := enters (List.replicate 512 7 ++ [7])
  obtain ⟨t, fills, here, count, asleep, killed, isOpen⟩ := write_run (List.replicate 512 7) s ready
    (by rw [empty, List.length_replicate, Nat.zero_add])
  have full : t.pipe.count = pipesize := by rw [count, empty, List.length_replicate, Nat.zero_add]
  rw [← asleep] at sleeps
  have run := (run.trans fills).tail
    ⟨_, .writeGivesUp 1 _ 7 [] here (Pipe.count_eq_size.mp full) (Or.inr (by rw [killed, dead])) trivial⟩
  refine ⟨_, run, rfl, sleeps, full, isOpen.trans opened, fun waits => ?_⟩
  have none : t.pipe.count = 0 := Pipe.count_eq_zero.mpr ((waits rfl 0).1 sleeps).1
  rw [full] at none
  cases none

end PipeSystem

end MiniOS
