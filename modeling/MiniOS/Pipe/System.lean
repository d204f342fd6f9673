import MiniOS.Fs.Code

namespace MiniOS

open Function

/-- `PIPESIZE`. -/
abbrev pipesize : Nat := 512

/-- The two addresses of a pipe that processes sleep on. -/
inductive PipeChan
  | nread
  | nwrite
  deriving DecidableEq

/-- Where a process is in `piperead` for `n` bytes or in `pipewrite` of `n` bytes, of
which `rest` are left. From `readTest` and `writeTest` on it holds the lock, until it is
at `readWait` or `writeWait` in `sleep`. -/
inductive PipePc
  | idle
  | readLock (n : Nat)
  | readTest (n : Nat)
  | readSleep (n : Nat)
  | readWait (n : Nat)
  | readCopy (n i : Nat)
  | writeLock (src : Bytes)
  | writeTest (n : Nat) (rest : Bytes)
  | writeSignal (n : Nat) (rest : Bytes)
  | writeSleep (n : Nat) (rest : Bytes)
  | writeWait (n : Nat) (rest : Bytes)
  deriving DecidableEq

/-- The process is between `acquire` and `release`. -/
def PipePc.inside : PipePc → Bool
  | readTest _ => true
  | readSleep _ => true
  | readCopy _ _ => true
  | writeTest _ _ => true
  | writeSignal _ _ => true
  | writeSleep _ _ => true
  | _ => false

/-- The value that a call returns. -/
inductive PipeEvent (ι : Type)
  | readReturns (p : ι) (r : Int)
  | writeReturns (p : ι) (r : Int)

/-- A pipe with all processes that use it. `buffer` is what the last `piperead` of
a process stored. `taken` has the bytes from the buffers of writers and `stored`
those for the buffers of readers, in the order in which they were copied. -/
structure PipeSystem (ι : Type) where
  pipe : Pipe
  lock : Option ι
  pc : ι → PipePc
  asleep : ι → Option PipeChan
  killed : ι → Bool
  buffer : ι → Bytes
  taken : Bytes
  stored : Bytes

namespace PipeSystem

variable {ι : Type} [DecidableEq ι]

def goto (s : PipeSystem ι) (p : ι) (pc : PipePc) : PipeSystem ι := { s with pc := update s.pc p pc }

/-- `wakeup`. -/
def wakeup (s : PipeSystem ι) (chan : PipeChan) : PipeSystem ι :=
  { s with asleep := fun p => if s.asleep p = some chan then none else s.asleep p }

/-- `sleep`, which gives up the lock. -/
def sleep (s : PipeSystem ι) (p : ι) (chan : PipeChan) : PipeSystem ι :=
  { s with lock := none, asleep := update s.asleep p (some chan) }

def release (s : PipeSystem ι) : PipeSystem ι := { s with lock := none }

def acquire (s : PipeSystem ι) (p : ι) : PipeSystem ι := { s with lock := some p }

/-- `addr[i] = p->data[p->nread++ % PIPESIZE]`. -/
def readByte (s : PipeSystem ι) (p : ι) : PipeSystem ι :=
  { s with
    pipe := { s.pipe with nread := s.pipe.nread + 1 }
    buffer := update s.buffer p (s.buffer p ++ [s.pipe.data (s.pipe.nread.toNat % pipesize)])
    stored := s.stored ++ [s.pipe.data (s.pipe.nread.toNat % pipesize)] }

/-- `p->data[p->nwrite++ % PIPESIZE] = addr[i]`. -/
def writeByte (s : PipeSystem ι) (c : BitVec 8) : PipeSystem ι :=
  { s with
    pipe := { s.pipe with
      data := update s.pipe.data (s.pipe.nwrite.toNat % pipesize) c
      nwrite := s.pipe.nwrite + 1 }
    taken := s.taken ++ [c] }

def Empty (s : PipeSystem ι) : Prop := s.pipe.nread = s.pipe.nwrite

def Full (s : PipeSystem ι) : Prop := s.pipe.nwrite = s.pipe.nread + 512

instance (s : PipeSystem ι) : Decidable s.Empty := inferInstanceAs (Decidable (_ = _))

instance (s : PipeSystem ι) : Decidable s.Full := inferInstanceAs (Decidable (_ = _))

/-- The section of `pipeclose`. -/
def close (s : PipeSystem ι) (writable : Bool) : PipeSystem ι :=
  if writable then { s with pipe := { s.pipe with writeopen := false } }.wakeup .nread
  else { s with pipe := { s.pipe with readopen := false } }.wakeup .nwrite

/-- `kill` of process `p`. -/
def kill (s : PipeSystem ι) (p : ι) : PipeSystem ι :=
  { s with killed := update s.killed p true, asleep := update s.asleep p none }

/-- The state after `pipealloc`, with any bytes in the page. -/
def initial (ι : Type) (data : Nat → BitVec 8) : PipeSystem ι where
  pipe := ⟨data, 0, 0, true, true⟩
  lock := none
  pc _ := .idle
  asleep _ := none
  killed _ := false
  buffer _ := []
  taken := []
  stored := []

end PipeSystem

/-- The steps of the processes. `givesUp` says when a `pipewrite` that finds the pipe
full may return -1. -/
inductive PipeStep {ι : Type} [DecidableEq ι] (givesUp : PipeSystem ι → Prop)
    (s : PipeSystem ι) : Option (PipeEvent ι) → PipeSystem ι → Prop
  | callRead (p : ι) (n : Nat) : s.pc p = .idle →
      PipeStep givesUp s none ({ s with buffer := update s.buffer p [] }.goto p (.readLock n))
  | readLock (p : ι) (n : Nat) : s.pc p = .readLock n → s.lock = none →
      PipeStep givesUp s none ((s.acquire p).goto p (.readTest n))
  | readBlocks (p : ι) (n : Nat) : s.pc p = .readTest n → s.Empty → s.pipe.writeopen = true →
      s.killed p = false → PipeStep givesUp s none (s.goto p (.readSleep n))
  | readKilled (p : ι) (n : Nat) : s.pc p = .readTest n → s.Empty → s.pipe.writeopen = true →
      s.killed p = true → PipeStep givesUp s (some (.readReturns p (-1))) (s.release.goto p .idle)
  | readSleep (p : ι) (n : Nat) : s.pc p = .readSleep n →
      PipeStep givesUp s none ((s.sleep p .nread).goto p (.readWait n))
  | readWakes (p : ι) (n : Nat) : s.pc p = .readWait n → s.asleep p = none → s.lock = none →
      PipeStep givesUp s none ((s.acquire p).goto p (.readTest n))
  | readReady (p : ι) (n : Nat) : s.pc p = .readTest n → ¬(s.Empty ∧ s.pipe.writeopen = true) →
      PipeStep givesUp s none (s.goto p (.readCopy n 0))
  | readByte (p : ι) (n i : Nat) : s.pc p = .readCopy n i → i < n → ¬s.Empty →
      PipeStep givesUp s none ((s.readByte p).goto p (.readCopy n (i + 1)))
  | readDone (p : ι) (n i : Nat) : s.pc p = .readCopy n i → ¬(i < n ∧ ¬s.Empty) →
      PipeStep givesUp s (some (.readReturns p i)) ((s.wakeup .nwrite).release.goto p .idle)
  | callWrite (p : ι) (src : Bytes) : s.pc p = .idle → PipeStep givesUp s none (s.goto p (.writeLock src))
  | writeLock (p : ι) (src : Bytes) : s.pc p = .writeLock src → s.lock = none →
      PipeStep givesUp s none ((s.acquire p).goto p (.writeTest src.length src))
  | writeByte (p : ι) (n : Nat) (c : BitVec 8) (rest : Bytes) : s.pc p = .writeTest n (c :: rest) → ¬s.Full →
      PipeStep givesUp s none ((s.writeByte c).goto p (.writeTest n rest))
  | writeBlocks (p : ι) (n : Nat) (c : BitVec 8) (rest : Bytes) : s.pc p = .writeTest n (c :: rest) → s.Full →
      ¬(s.pipe.readopen = false ∨ s.killed p = true) → PipeStep givesUp s none (s.goto p (.writeSignal n (c :: rest)))
  | writeGivesUp (p : ι) (n : Nat) (c : BitVec 8) (rest : Bytes) : s.pc p = .writeTest n (c :: rest) → s.Full →
      s.pipe.readopen = false ∨ s.killed p = true → givesUp s →
      PipeStep givesUp s (some (.writeReturns p (-1))) (s.release.goto p .idle)
  | writeSignal (p : ι) (n : Nat) (rest : Bytes) : s.pc p = .writeSignal n rest →
      PipeStep givesUp s none ((s.wakeup .nread).goto p (.writeSleep n rest))
  | writeSleep (p : ι) (n : Nat) (rest : Bytes) : s.pc p = .writeSleep n rest →
      PipeStep givesUp s none ((s.sleep p .nwrite).goto p (.writeWait n rest))
  | writeWakes (p : ι) (n : Nat) (rest : Bytes) : s.pc p = .writeWait n rest → s.asleep p = none → s.lock = none →
      PipeStep givesUp s none ((s.acquire p).goto p (.writeTest n rest))
  | writeDone (p : ι) (n : Nat) : s.pc p = .writeTest n [] →
      PipeStep givesUp s (some (.writeReturns p n)) ((s.wakeup .nread).release.goto p .idle)
  | close (writable : Bool) : s.lock = none → PipeStep givesUp s none (s.close writable)
  | kill (p : ι) : PipeStep givesUp s none (s.kill p)

/-- A run with the values that the calls return. -/
abbrev PipeSystem.Run {ι : Type} [DecidableEq ι] (givesUp : PipeSystem ι → Prop) (s t : PipeSystem ι) : Prop :=
  Relation.ReflTransGen (fun s t => ∃ event, PipeStep givesUp s event t) s t

end MiniOS
