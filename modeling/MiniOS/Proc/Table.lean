import Mathlib.Algebra.GroupWithZero.Nat
import Mathlib.Data.List.FinRange
import Mathlib.Logic.Function.Basic

namespace MiniOS

open Function

/-- `NPROC`, the number of entries of the process table. -/
abbrev nproc : Nat := 16

instance nproc_neZero : NeZero nproc := ⟨by decide⟩

inductive ProcState
  | unused
  | embryo
  | sleeping
  | runnable
  | running
  | zombie
  deriving DecidableEq

/-- An address that a process sleeps on: an entry of the process table or
another one. -/
inductive Chan
  | proc (p : Fin nproc)
  | other (address : Nat)
  deriving DecidableEq

/-- The part of `struct proc` that is about the life of a process. Pointers are
`none` for 0 in `parent` and `chan`; `kstack` and `pgdir` are addresses. -/
structure Proc where
  state : ProcState
  pid : BitVec 32
  parent : Option (Fin nproc)
  killed : Bool
  chan : Option Chan
  kstack : Nat
  pgdir : Nat
  deriving DecidableEq

/-- `ptable.proc`. -/
abbrev Ptable := Fin nproc → Proc

namespace Ptable

variable (t : Ptable)

def wakeup1 (chan : Option Chan) : Ptable := fun i =>
  if (t i).state = .sleeping ∧ (t i).chan = chan then { t i with state := .runnable } else t i

/-- `kill`, with the value that it returns. -/
def kill (pid : BitVec 32) : Ptable × Int :=
  match (List.finRange nproc).find? fun i => (t i).pid = pid with
  | some i =>
    (update t i { t i with
      killed := true
      state := if (t i).state = .sleeping then .runnable else (t i).state }, 0)
  | none => (t, -1)

/-- The section of `allocproc` under `ptable.lock`. -/
def allocproc (nextpid : BitVec 32) : Option (Ptable × Fin nproc) :=
  match (List.finRange nproc).find? fun i => (t i).state = .unused with
  | some i => some (update t i { t i with state := .embryo, pid := nextpid }, i)
  | none => none

/-- One round of the loop of `exit` that passes children to init. -/
def abandon (curproc initproc p : Fin nproc) : Ptable :=
  if (t p).parent = some curproc then
    let t : Ptable := update t p { t p with parent := some initproc }
    if (t p).state = .zombie then t.wakeup1 (some (.proc initproc)) else t
  else t

def abandonAll (curproc initproc : Fin nproc) : Ptable :=
  (List.finRange nproc).foldl (fun t p => t.abandon curproc initproc p) t

def setState (p : Fin nproc) (state : ProcState) : Ptable := update t p { t p with state := state }

/-- The section of `exit` under `ptable.lock`, up to `sched`. -/
def exit (curproc initproc : Fin nproc) : Ptable :=
  let t := t.wakeup1 ((t curproc).parent.map .proc)
  let t := t.abandonAll curproc initproc
  t.setState curproc .zombie

/-- The scan of `wait`: a child that has exited. -/
def exitedChild (curproc : Fin nproc) : Option (Fin nproc) :=
  (List.finRange nproc).find? fun p => (t p).parent = some curproc ∧ (t p).state = .zombie

/-- What `wait` does to a child that it has found. -/
def reap (p : Fin nproc) : Ptable :=
  update t p { t p with kstack := 0, pid := 0, parent := none, killed := false, state := .unused }

/-- `havekids` at the end of the scan of `wait`. -/
def HaveKids (curproc : Fin nproc) : Prop := ∃ p, (t p).parent = some curproc

instance (curproc : Fin nproc) : Decidable (t.HaveKids curproc) := inferInstanceAs (Decidable (∃ _, _))

/-- `p->chan = chan; p->state = SLEEPING`. -/
def sleep (p : Fin nproc) (chan : Chan) : Ptable :=
  update t p { t p with chan := some chan, state := .sleeping }

/-- The last lines of `sleep`. -/
def clearChan (p : Fin nproc) : Ptable := update t p { t p with chan := none }

/-- What `allocproc` and `fork` do to an entry when they fail. -/
def giveBack (np : Fin nproc) : Ptable := update t np { t np with kstack := 0, state := .unused }

def setStack (np : Fin nproc) (kstack : Nat) : Ptable := update t np { t np with kstack := kstack }

def setDir (np : Fin nproc) (pgdir : Nat) : Ptable := update t np { t np with pgdir := pgdir }

def setParent (np curproc : Fin nproc) : Ptable := update t np { t np with parent := some curproc }

end Ptable

/-- Where a process is in the kernel: elsewhere, in `sleep`, at the scan of
`wait`, in the `sleep` of `wait`, or in `fork` with the entry of its child: with
no kernel stack yet, with a kernel stack, and with everything but the state set. -/
inductive ProcPc
  | elsewhere
  | asleep
  | waiting
  | waitAsleep
  | forking (np : Fin nproc)
  | stacked (np : Fin nproc)
  | forked (np : Fin nproc)
  deriving DecidableEq

/-- The process table and where each process is. No kernel function reads the
last three fields: `births` counts the calls of `allocproc` that found an entry,
`birth` numbers the processes in that order, and `called` says that `kill` was
called with the pid of the entry after that pid was assigned. -/
structure Procs where
  proc : Ptable
  nextpid : BitVec 32
  initproc : Fin nproc
  pc : Fin nproc → ProcPc
  births : Nat
  birth : Fin nproc → Nat
  called : Fin nproc → Bool

/-- What a step shows: the exit of a process, and a `wait` that returns the pid
of a child. Processes are given by their number of birth. -/
inductive ProcEvent
  | exited (birth : Nat)
  | waited (parent child : Fin nproc) (birth : Nat) (pid : BitVec 32)

namespace Procs

variable (s : Procs)

def withProc (t : Ptable) : Procs := { s with proc := t }

def goto (p : Fin nproc) (pc : ProcPc) : Procs := { s with pc := update s.pc p pc }

/-- The state after `userinit`, with the pages that it allocated. -/
def userinit (kstack pgdir : Nat) : Procs where
  proc i := if i = 0 then ⟨.runnable, 1, none, false, none, kstack, pgdir⟩ else ⟨.unused, 0, none, false, none, 0, 0⟩
  nextpid := 2
  initproc := 0
  pc _ := .elsewhere
  births := 1
  birth _ := 0
  called _ := false

/-- Process `p` runs and is in no function of the process table. -/
def Free (p : Fin nproc) : Prop := (s.proc p).state = .running ∧ s.pc p = .elsewhere

end Procs

/-- The steps of the system, each section under `ptable.lock` one step.
`mayKill` and `mayFail` say which calls of `kill` and which failures of `fork`
after `allocproc` are taken into account. -/
inductive ProcStep (mayKill : Procs → BitVec 32 → Prop) (mayFail : Procs → Fin nproc → Prop)
    (s : Procs) : Option ProcEvent → Procs → Prop
  | schedule (p : Fin nproc) : (s.proc p).state = .runnable →
      ProcStep mayKill mayFail s none (s.withProc (s.proc.setState p .running))
  | yield (p : Fin nproc) : (s.proc p).state = .running →
      ProcStep mayKill mayFail s none (s.withProc (s.proc.setState p .runnable))
  | sleep (p : Fin nproc) (address : Nat) : s.Free p →
      ProcStep mayKill mayFail s none ((s.withProc (s.proc.sleep p (.other address))).goto p .asleep)
  | awake (p : Fin nproc) : (s.proc p).state = .running → s.pc p = .asleep →
      ProcStep mayKill mayFail s none ((s.withProc (s.proc.clearChan p)).goto p .elsewhere)
  | wakeup (address : Nat) :
      ProcStep mayKill mayFail s none (s.withProc (s.proc.wakeup1 (some (.other address))))
  | kill (pid : BitVec 32) : mayKill s pid →
      ProcStep mayKill mayFail s none
        { s with proc := (s.proc.kill pid).1, called := fun i => s.called i || decide ((s.proc i).pid = pid) }
  | allocproc {t : Ptable} (p np : Fin nproc) : s.Free p → s.proc.allocproc s.nextpid = some (t, np) →
      ProcStep mayKill mayFail s none
        { s with
          proc := t
          nextpid := s.nextpid + 1
          pc := update s.pc p (.forking np)
          births := s.births + 1
          birth := update s.birth np s.births
          called := update s.called np false }
  | noStack (p np : Fin nproc) : (s.proc p).state = .running → s.pc p = .forking np → mayFail s np →
      ProcStep mayKill mayFail s none ((s.withProc (s.proc.giveBack np)).goto p .elsewhere)
  | kstack (p np : Fin nproc) (kstack : Nat) : (s.proc p).state = .running → s.pc p = .forking np →
      ProcStep mayKill mayFail s none ((s.withProc (s.proc.setStack np kstack)).goto p (.stacked np))
  | noMemory (p np : Fin nproc) : (s.proc p).state = .running → s.pc p = .stacked np → mayFail s np →
      ProcStep mayKill mayFail s none ((s.withProc ((s.proc.setDir np 0).giveBack np)).goto p .elsewhere)
  | copied (p np : Fin nproc) (pgdir : Nat) : (s.proc p).state = .running → s.pc p = .stacked np →
      ProcStep mayKill mayFail s none ((s.withProc ((s.proc.setDir np pgdir).setParent np p)).goto p (.forked np))
  | forked (p np : Fin nproc) : (s.proc p).state = .running → s.pc p = .forked np →
      ProcStep mayKill mayFail s none ((s.withProc (s.proc.setState np .runnable)).goto p .elsewhere)
  | exit (p : Fin nproc) : s.Free p → p ≠ s.initproc →
      ProcStep mayKill mayFail s (some (.exited (s.birth p))) (s.withProc (s.proc.exit p s.initproc))
  | waitEnter (p : Fin nproc) : s.Free p → ProcStep mayKill mayFail s none (s.goto p .waiting)
  | waited (p child : Fin nproc) : (s.proc p).state = .running → s.pc p = .waiting →
      s.proc.exitedChild p = some child →
      ProcStep mayKill mayFail s (some (.waited p child (s.birth child) (s.proc child).pid))
        ((s.withProc (s.proc.reap child)).goto p .elsewhere)
  | waitFails (p : Fin nproc) : (s.proc p).state = .running → s.pc p = .waiting →
      s.proc.exitedChild p = none → ¬s.proc.HaveKids p ∨ (s.proc p).killed →
      ProcStep mayKill mayFail s none (s.goto p .elsewhere)
  | waitSleeps (p : Fin nproc) : (s.proc p).state = .running → s.pc p = .waiting →
      s.proc.exitedChild p = none → s.proc.HaveKids p → (s.proc p).killed = false →
      ProcStep mayKill mayFail s none ((s.withProc (s.proc.sleep p (.proc p))).goto p .waitAsleep)
  | waitAwake (p : Fin nproc) : (s.proc p).state = .running → s.pc p = .waitAsleep →
      ProcStep mayKill mayFail s none ((s.withProc (s.proc.clearChan p)).goto p .waiting)

end MiniOS
