import MiniOS.Lib.Ring
import MiniOS.Lib.Run
import MiniOS.Pipe.System
import MiniOS.Fs.Runs

namespace MiniOS

open Lib Relation Function

namespace Pipe

variable {e : Pipe}

/-- The number of bytes in the pipe. -/
def count (e : Pipe) : Nat := (e.nwrite - e.nread).toNat

/-- The bytes in `data` between `nread` and `nwrite`. -/
def contents (e : Pipe) : Bytes := held e.data pipesize e.nread.toNat e.count

theorem count_eq_zero : e.count = 0 ↔ e.nread = e.nwrite := by
  rw [count]
  constructor
  · intro zero
    bv_omega
  · rintro same
    rw [same, BitVec.sub_self]
    rfl

theorem count_eq_size : e.count = pipesize ↔ e.nwrite = e.nread + 512 := by
  rw [count, pipesize]
  constructor
  · intro full
    bv_omega
  · intro full
    bv_omega

theorem toNat_add_count : (e.nread.toNat + e.count) % 2 ^ 32 = e.nwrite.toNat := by
  rw [count]
  bv_omega

/-- The oldest byte is read. -/
theorem contents_read (some : e.nread ≠ e.nwrite) :
    e.contents = e.data (e.nread.toNat % pipesize) :: contents { e with nread := e.nread + 1 } ∧
      e.count = count { e with nread := e.nread + 1 } + 1 := by
  have fewer : e.count = count { e with nread := e.nread + 1 } + 1 := by
    simp only [count]
    bv_omega
  refine ⟨?_, fewer⟩
  rw [contents, fewer, held_pop, contents, BitVec.toNat_add, held_mod (by decide)]
  rfl

/-- A byte is written behind the newest one. -/
theorem contents_write (bound : e.count ≤ pipesize) (room : e.nwrite ≠ e.nread + 512) (c : BitVec 8) :
    contents { e with data := update e.data (e.nwrite.toNat % pipesize) c, nwrite := e.nwrite + 1 } =
    e.contents ++ [c] ∧
      count { e with data := update e.data (e.nwrite.toNat % pipesize) c, nwrite := e.nwrite + 1 } = e.count + 1 := by
  have less : e.count < pipesize := Nat.lt_of_le_of_ne bound fun full => room (count_eq_size.1 full)
  have more : count { e with data := update e.data (e.nwrite.toNat % pipesize) c, nwrite := e.nwrite + 1 } =
      e.count + 1 := by
    simp only [count, pipesize] at less ⊢
    bv_omega
  have place : e.nwrite.toNat % pipesize = (e.nread.toNat + e.count) % pipesize := by
    rw [← toNat_add_count, Nat.mod_mod_of_dvd _ (by decide)]
  refine ⟨?_, more⟩
  rw [contents, more]
  simp only [place]
  exact held_push less c

end Pipe

/-- The number of bytes that the `piperead` of a process has stored. -/
def PipePc.got : PipePc → Option Nat
  | readLock _ => some 0
  | readTest _ => some 0
  | readSleep _ => some 0
  | readWait _ => some 0
  | readCopy _ i => some i
  | _ => none

namespace PipeSystem

variable {ι : Type} [DecidableEq ι] {s t : PipeSystem ι} {p : ι} {givesUp : PipeSystem ι → Prop}
  {event : Option (PipeEvent ι)}

/-- What was taken from writers and not yet given to readers is in the pipe. -/
structure Fifo (s : PipeSystem ι) : Prop where
  bytes : s.taken = s.stored ++ s.pipe.contents
  bound : s.pipe.count ≤ pipesize
  copied : ∀ q k, (s.pc q).got = some k → (s.buffer q).length = k

namespace Fifo

variable {pc : PipePc} {n : Nat}

/-- A step that moves no byte. -/
theorem keep (fifo : s.Fifo) (contents : t.pipe.contents = s.pipe.contents) (count : t.pipe.count = s.pipe.count)
    (taken : t.taken = s.taken) (stored : t.stored = s.stored) (buffer : t.buffer = s.buffer)
    (goes : t.pc = update s.pc p pc) (got : ∀ k, pc.got = some k → (s.pc p).got = some k) : t.Fifo := by
  refine ⟨by rw [taken, stored, contents, fifo.bytes], by rw [count]; exact fifo.bound, fun q k here => ?_⟩
  rw [buffer]
  rw [goes] at here
  by_cases same : q = p
  · subst same
    rw [update_self] at here
    exact fifo.copied q k (got k here)
  · rw [update_of_ne same] at here
    exact fifo.copied q k here

theorem goto (fifo : s.Fifo) (got : ∀ k, pc.got = some k → (s.pc p).got = some k) : (s.goto p pc).Fifo :=
  fifo.keep rfl rfl rfl rfl rfl rfl got

theorem callRead (fifo : s.Fifo) (n : Nat) :
    ({ s with buffer := update s.buffer p [] }.goto p (.readLock n)).Fifo := by
  refine ⟨fifo.bytes, fifo.bound, fun q k here => ?_⟩
  simp only [PipeSystem.goto] at here ⊢
  by_cases same : q = p
  · subst same
    rw [update_self] at here ⊢
    cases here
    rfl
  · rw [update_of_ne same] at here ⊢
    exact fifo.copied q k here

theorem readByte (fifo : s.Fifo) {i : Nat} (at_copy : s.pc p = .readCopy n i) (some : ¬s.Empty) :
    ((s.readByte p).goto p (.readCopy n (i + 1))).Fifo := by
  obtain ⟨first, fewer⟩ := Pipe.contents_read some
  have bound := fifo.bound
  refine ⟨?_, ?_, fun q k here => ?_⟩
  · simp only [PipeSystem.goto, PipeSystem.readByte]
    rw [fifo.bytes, first, List.append_assoc, List.singleton_append]
  · simp only [PipeSystem.goto, PipeSystem.readByte]
    omega
  · simp only [PipeSystem.goto, PipeSystem.readByte] at here ⊢
    by_cases same : q = p
    · subst same
      rw [update_self] at here ⊢
      cases here
      rw [List.length_append, fifo.copied q i (by rw [at_copy]; rfl), List.length_singleton]
    · rw [update_of_ne same] at here ⊢
      exact fifo.copied q k here

theorem writeByte (fifo : s.Fifo) {c : BitVec 8} {rest : Bytes} (room : ¬s.Full) :
    ((s.writeByte c).goto p (.writeTest n rest)).Fifo := by
  obtain ⟨last, more⟩ := Pipe.contents_write fifo.bound room c
  have less : s.pipe.count ≠ pipesize := fun full => room (Pipe.count_eq_size.1 full)
  have bound := fifo.bound
  have written : (s.writeByte c).Fifo := by
    refine ⟨?_, ?_, fifo.copied⟩
    · simp only [PipeSystem.writeByte]
      rw [last, fifo.bytes, List.append_assoc]
    · simp only [PipeSystem.writeByte]
      omega
  exact written.goto nofun

theorem step (fifo : s.Fifo) (step : PipeStep givesUp s event t) : t.Fifo := by
  cases step with
  | callRead p n _ => exact fifo.callRead n
  | readLock _ _ here | readSleep _ _ here | readWakes _ _ here =>
    exact fifo.keep rfl rfl rfl rfl rfl rfl fun k same => by rw [here]; exact same
  | readBlocks _ _ here | readReady _ _ here => exact fifo.goto fun k same => by rw [here]; exact same
  | readKilled | readDone | writeLock | writeGivesUp | writeSignal | writeSleep | writeWakes | writeDone =>
    exact fifo.keep rfl rfl rfl rfl rfl rfl nofun
  | readByte p n i here _ some => exact fifo.readByte here some
  | callWrite | writeBlocks => exact fifo.goto nofun
  | writeByte p n c rest _ room => exact fifo.writeByte room
  | close writable _ =>
    cases writable with
    | true | false => exact ⟨fifo.bytes, fifo.bound, fifo.copied⟩
  | kill p => exact ⟨fifo.bytes, fifo.bound, fifo.copied⟩

omit [DecidableEq ι] in
theorem initial (data : Nat → BitVec 8) : (PipeSystem.initial ι data).Fifo := by
  have none : (PipeSystem.initial ι data).pipe.count = 0 := Pipe.count_eq_zero.2 rfl
  exact ⟨by rw [Pipe.contents, none]; rfl, by rw [none]; exact Nat.zero_le _, nofun⟩

end Fifo

/-- The bytes for readers are the first ones from writers, at most `PIPESIZE`
bytes are in between, and those are in the pipe. A `piperead` returns how many
bytes it stored, or -1 if the process is killed before it stores any. -/
theorem pipe_lossless {data : Nat → BitVec 8} (run : (PipeSystem.initial ι data).Run (fun _ => True) s) :
    s.taken = s.stored ++ s.pipe.contents ∧ s.pipe.contents.length ≤ pipesize ∧
      ∀ p r t, PipeStep (fun _ => True) s (some (.readReturns p r)) t →
        r = (s.buffer p).length ∨ (r = -1 ∧ s.killed p = true ∧ s.buffer p = []) := by
  have fifo : s.Fifo := run_induction (fun fifo ⟨_, last⟩ => fifo.step last) (Fifo.initial data) run
  refine ⟨fifo.bytes, ?_, fun p r t last => ?_⟩
  · rw [Pipe.contents, held_length]
    exact fifo.bound
  · cases last with
    | readKilled p n here _ _ killed =>
      have none := fifo.copied p 0 (by rw [here]; rfl)
      exact Or.inr ⟨rfl, killed, List.length_eq_zero_iff.mp none⟩
    | readDone p n i here _ => exact Or.inl (by rw [fifo.copied p i (by rw [here]; rfl)])

section Calls

variable {fs fs' : Fs} {page n : Nat} {src bytes : Bytes}

theorem pipe_eq {e : Pipe} (here : fs.pipe page = some e) : MiniOS.pipe page fs = .ok (e, fs) :=
  wp_eq (wp_get_seq (by rw [here]; rfl))

/-- The loop of `pipewrite`, if it takes all bytes, is a run of steps. -/
theorem pipewrite_loop (here : fs.pipe page = some s.pipe) (at_pc : s.pc p = .writeTest n src)
    (call : pipewrite page src fs = .ok (true, fs')) : ∃ e, fs'.pipe page = some e ∧
      s.Run givesUp ({ s with pipe := e, taken := s.taken ++ src }.goto p (.writeTest n [])) := by
  induction src generalizing s fs with
  | nil =>
    cases call
    refine ⟨_, here, ?_⟩
    rw [List.append_nil, goto, ← at_pc, update_eq_self]
  | cons c rest ih =>
    obtain ⟨e, u, read, call⟩ := run_bind call
    cases (pipe_eq here).symm.trans read
    by_cases full : s.pipe.nwrite = s.pipe.nread + 512
    · rw [if_pos full] at call
      split at call <;> cases call
    · rw [if_neg full] at call
      obtain ⟨_, u, set, call⟩ := run_bind call
      cases set
      obtain ⟨e, there, run⟩ := ih (s := (s.writeByte c).goto p (.writeTest n rest))
        (update_self ..) (update_self ..) call
      simp only [goto, writeByte, update_idem, List.append_assoc, List.singleton_append] at run
      exact ⟨e, there, .head ⟨_, .writeByte p n c rest at_pc full⟩ run⟩

/-- A call of `pipewrite` that takes all bytes, made without interruption, continues a run of this system. -/
theorem pipewrite_steps (run : t.Run givesUp s) (idle : s.pc p = .idle) (free : s.lock = none)
    (here : fs.pipe page = some s.pipe) (call : pipewrite page src fs = .ok (true, fs')) :
    ∃ e, fs'.pipe page = some e ∧
      t.Run givesUp ({ s with pipe := e, taken := s.taken ++ src }.wakeup .nread) := by
  have first := (run.tail ⟨_, .callWrite p src idle⟩).tail ⟨_, .writeLock p src (update_self ..) free⟩
  obtain ⟨e, there, loop⟩ := pipewrite_loop (s := ((s.goto p _).acquire p).goto p _) here (update_self ..) call
  have last := (first.trans loop).tail ⟨_, .writeDone p src.length (update_self ..)⟩
  simp only [goto, acquire, release, wakeup, update_idem, ← idle, update_eq_self, ← free] at last
  exact ⟨e, there, last⟩

theorem readDone_run {m i : Nat} (at_pc : s.pc p = .readCopy m i) (ended : ¬(i < m ∧ ¬s.Empty)) :
    s.Run givesUp (({ s with
      buffer := update s.buffer p (s.buffer p ++ [])
      stored := s.stored ++ [] }.wakeup .nwrite).release.goto p .idle) := by
  rw [List.append_nil, List.append_nil, update_eq_self]
  exact .single ⟨_, .readDone p m i at_pc ended⟩

/-- The loop of `piperead` is a run of steps, with the return behind it. -/
theorem piperead_loop {m i : Nat} (here : fs.pipe page = some s.pipe) (at_pc : s.pc p = .readCopy m i)
    (left : m = i + n) (call : pipereadLoop page n fs = .ok (bytes, fs')) : ∃ e, fs'.pipe page = some e ∧
      s.Run givesUp (({ s with
        pipe := e
        buffer := update s.buffer p (s.buffer p ++ bytes)
        stored := s.stored ++ bytes }.wakeup .nwrite).release.goto p .idle) := by
  induction n generalizing s fs i bytes with
  | zero =>
    cases call
    exact ⟨_, here, readDone_run at_pc (by omega)⟩
  | succ n ih =>
    obtain ⟨e, u, read, call⟩ := run_bind call
    cases (pipe_eq here).symm.trans read
    by_cases empty : s.pipe.nread = s.pipe.nwrite
    · rw [if_pos empty] at call
      cases call
      exact ⟨_, here, readDone_run at_pc fun more => more.2 empty⟩
    · rw [if_neg empty] at call
      obtain ⟨_, u, set, call⟩ := run_bind call
      cases set
      obtain ⟨rest, u, loop, call⟩ := run_bind call
      cases call
      obtain ⟨e, there, run⟩ := ih (s := (s.readByte p).goto p (.readCopy m (i + 1)))
        (update_self ..) (update_self ..)
        (by omega) loop
      simp only [goto, readByte, wakeup, release, update_idem, update_self, List.append_assoc,
        List.singleton_append] at run
      exact ⟨e, there, .head ⟨_, .readByte p m i at_pc (by omega) empty⟩ run⟩

/-- A call of `piperead` that returns, made without interruption, continues a run of this system. -/
theorem piperead_steps (run : t.Run givesUp s) (idle : s.pc p = .idle) (free : s.lock = none)
    (here : fs.pipe page = some s.pipe) (call : piperead page n fs = .ok (bytes, fs')) : ∃ e, fs'.pipe page = some e ∧
      t.Run givesUp
      ({ s with pipe := e, buffer := update s.buffer p bytes, stored := s.stored ++ bytes }.wakeup .nwrite) := by
  obtain ⟨e, u, read, call⟩ := run_bind call
  cases (pipe_eq here).symm.trans read
  by_cases waits : s.pipe.nread = s.pipe.nwrite ∧ s.pipe.writeopen = true
  · rw [if_pos waits] at call
    cases call
  · rw [if_neg waits] at call
    have first := ((run.tail ⟨_, .callRead p n idle⟩).tail ⟨_, .readLock p n (update_self ..) free⟩).tail
      ⟨_, .readReady p n (update_self ..) waits⟩
    obtain ⟨e, there, loop⟩ :=
      piperead_loop (s := ((({ s with buffer := update s.buffer p [] }.goto p _).acquire p).goto p
      _).goto p _) here (update_self ..) (Nat.zero_add n).symm call
    have last := first.trans loop
    simp only [goto, acquire, release, wakeup, update_idem, update_self, ← idle, update_eq_self, ← free,
      List.nil_append] at last
    exact ⟨e, there, last⟩

end Calls

/-- A pipe in page 0, and nothing else. -/
def onlyPipe (e : Pipe) : Fs := (Fs.zeroed ⟨0, 0, 0, 0, 0, 0, 0⟩ (fun _ _ => 0) fun _ => none).setPipe 0 (some e)

/-- Process 0 waits for two bytes. Process 1 writes two and process 2 a third one, which is left when
process 0 has read and goes to process 2. -/
theorem pipe_lossless_three_bytes :
    ∃ s : PipeSystem (Fin 3), (PipeSystem.initial (Fin 3) fun _ => 0).Run (fun _ => True) s ∧
    s.buffer 0 = [7, 8] ∧ s.buffer 2 = [9] ∧ s.taken = [7, 8, 9] ∧ s.taken = s.stored ++ s.pipe.contents := by
  have run : (PipeSystem.initial (Fin 3) fun _ => 0).Run (fun _ => True) _ := .single ⟨_, .callRead 0 2 rfl⟩
  have run := ((run.tail ⟨_, .readLock 0 2 rfl rfl⟩).tail ⟨_, .readBlocks 0 2 rfl rfl rfl rfl⟩).tail
    ⟨_, .readSleep 0 2 rfl⟩
  obtain ⟨e, there, run⟩ := pipewrite_steps (p := 1) run rfl rfl (show (onlyPipe _).pipe 0 = some _ from rfl)
    (show pipewrite 0 [7, 8] _ = .ok (true, _) from rfl)
  cases there
  obtain ⟨e, there, run⟩ := pipewrite_steps (p := 2) run rfl rfl (show (onlyPipe _).pipe 0 = some _ from rfl)
    (show pipewrite 0 [9] _ = .ok (true, _) from rfl)
  cases there
  have run := ((run.tail ⟨_, .readWakes 0 2 rfl rfl rfl⟩).tail ⟨_, .readReady 0 2 rfl (by decide)⟩).tail
    ⟨_, .readByte 0 2 0 rfl (by decide) (by decide)⟩
  have run := (run.tail ⟨_, .readByte 0 2 1 rfl (by decide) (by decide)⟩).tail ⟨_, .readDone 0 2 2 rfl (by decide)⟩
  obtain ⟨e, there, run⟩ := piperead_steps (p := 2) run rfl rfl (show (onlyPipe _).pipe 0 = some _ from rfl)
    (show piperead 0 5 _ = .ok ([9], _) from rfl)
  cases there
  exact ⟨_, run, rfl, rfl, rfl, (pipe_lossless run).1⟩

end PipeSystem

end MiniOS
