import MiniOS.Lib.Run
import Mathlib.Logic.Function.Basic

namespace MiniOS

open Function

/-- A path component. -/
abbrev Name := List (BitVec 8)

/-- The type of an inode, `free` for 0. -/
inductive Kind
  | free
  | dir
  | file
  | device
  deriving DecidableEq

/-- A call for a name in a directory: `sys_unlink`, or `sys_open` with
`O_CREATE` and `sys_mkdir`, which call `create`. -/
inductive DirCall
  | unlink (name : Name)
  | create (name : Name) (type : Kind)

/-- What a call goes on with when an `iput` is done. -/
inductive AfterPut
  | finish
  | walkOn (call : DirCall) (next : Nat)
  | fail
  | dropLink (ip : Nat)
  | giveBack (ip : Nat) (type : Kind)
  | openOld (ip : Nat) (type : Kind)

/-- Where a process is. The constructors up to `enter` are in `nameiparent`,
those from `put` to `putUnref` in `iput`. -/
inductive CallPc
  | idle
  | walk (call : DirCall) (ip : Nat)
  | walkHeld (call : DirCall) (ip : Nat)
  | enter (call : DirCall)
  | lookup (call : DirCall)
  | lockFound (name : Name) (ip : Nat)
  | erase (name : Name) (ip : Nat)
  | lockNew (name : Name) (ip : Nat) (type : Kind)
  | link (name : Name) (ip : Nat) (type : Kind)
  | lockOld (ip : Nat) (type : Kind)
  | returned (ip : Nat) (type : Kind)
  | dropLink (ip : Nat)
  | unlockDir (after : AfterPut)
  | unlockInode (ip : Nat) (after : AfterPut)
  | put (ip : Nat) (after : AfterPut)
  | putHeld (ip : Nat) (after : AfterPut)
  | putFreed (ip : Nat) (after : AfterPut)
  | putUnref (ip : Nat) (after : AfterPut)

/-- The entries of the directory and what the calls look at in the inodes:
type, link count, reference count, and the process that has the lock. -/
structure DirState where
  entry : Name → Option Nat
  kind : Nat → Kind
  nlink : Nat → Int
  ref : Nat → Nat
  holder : Nat → Option Bool

namespace DirState

variable (d : DirState)

def lock (me : Bool) (ip : Nat) : DirState := { d with holder := update d.holder ip (some me) }

def unlock (ip : Nat) : DirState := { d with holder := update d.holder ip none }

def iget (ip : Nat) : DirState := { d with ref := update d.ref ip (d.ref ip + 1) }

def unref (ip : Nat) : DirState := { d with ref := update d.ref ip (d.ref ip - 1) }

def addLinks (ip : Nat) (n : Int) : DirState := { d with nlink := update d.nlink ip (d.nlink ip + n) }

def setKind (ip : Nat) (kind : Kind) : DirState := { d with kind := update d.kind ip kind }

def setEntry (name : Name) (ip : Option Nat) : DirState := { d with entry := update d.entry name ip }

end DirState

/-- Where the call is after the `iput`. -/
def AfterPut.pc : AfterPut → CallPc
  | finish => .idle
  | walkOn call next => .walk call next
  | fail => .unlockDir .finish
  | dropLink ip => .dropLink ip
  | giveBack ip type => .returned ip type
  | openOld ip type => .lockOld ip type

/-- The steps of process `me` in directory `dp`. Whether a directory is empty,
which components a path has and whether an open file can be allocated is left
open. `allowed` says when `sys_unlink` may go on with the inode it has found. -/
inductive CallStep (dp : Nat) (me : Bool) (allowed : DirState → Nat → Prop) (d : DirState) :
    CallPc → DirState → CallPc → Prop
  | start (call : DirCall) (ip : Nat) : CallStep dp me allowed d .idle (d.iget ip) (.walk call ip)
  | walkLock {call : DirCall} {ip : Nat} : d.holder ip = none → d.kind ip ≠ .free →
      CallStep dp me allowed d (.walk call ip) (d.lock me ip) (.walkHeld call ip)
  | walkEnd {call : DirCall} {ip : Nat} :
      CallStep dp me allowed d (.walk call ip) d (.put ip .finish)
  | walkFail {call : DirCall} {ip : Nat} :
      CallStep dp me allowed d (.walkHeld call ip) d (.unlockInode ip .finish)
  | walkOn {call : DirCall} {ip : Nat} (next : Nat) : d.kind ip = .dir →
      CallStep dp me allowed d (.walkHeld call ip) (d.iget next) (.unlockInode ip (.walkOn call next))
  | walkDone {call : DirCall} : d.kind dp = .dir →
      CallStep dp me allowed d (.walkHeld call dp) (d.unlock dp) (.enter call)
  | lockDir {call : DirCall} : d.holder dp = none →
      CallStep dp me allowed d (.enter call) (d.lock me dp) (.lookup call)
  | missing {name : Name} : d.entry name = none →
      CallStep dp me allowed d (.lookup (.unlink name)) d (.unlockDir .finish)
  | found {name : Name} {ip : Nat} : d.entry name = some ip → allowed d ip →
      CallStep dp me allowed d (.lookup (.unlink name)) (d.iget ip) (.lockFound name ip)
  | lockFound {name : Name} {ip : Nat} : d.holder ip = none → d.kind ip ≠ .free →
      CallStep dp me allowed d (.lockFound name ip) (d.lock me ip) (.erase name ip)
  | notEmpty {name : Name} {ip : Nat} : d.nlink ip ≥ 1 → d.kind ip = .dir →
      CallStep dp me allowed d (.erase name ip) d (.unlockInode ip .fail)
  | erase {name : Name} {ip : Nat} : d.nlink ip ≥ 1 →
      CallStep dp me allowed d (.erase name ip)
        ((d.setEntry name none).addLinks dp (if d.kind ip = .dir then -1 else 0)) (.unlockDir (.dropLink ip))
  | dropLink {ip : Nat} :
      CallStep dp me allowed d (.dropLink ip) (d.addLinks ip (-1)) (.unlockInode ip .finish)
  | present {name : Name} {type : Kind} {ip : Nat} : d.entry name = some ip →
      CallStep dp me allowed d (.lookup (.create name type)) (d.iget ip) (.unlockDir (.openOld ip type))
  | lockOld {ip : Nat} : d.holder ip = none → d.kind ip = .file →
      CallStep dp me allowed d (.lockOld ip .file) (d.lock me ip) (.returned ip .file)
  | lockOther {ip : Nat} {type : Kind} : d.holder ip = none → d.kind ip ≠ .free →
      CallStep dp me allowed d (.lockOld ip type) (d.lock me ip) (.unlockInode ip .finish)
  | ialloc {name : Name} {type : Kind} (ip : Nat) : d.entry name = none → d.kind ip = .free →
      type ≠ .free → CallStep dp me allowed d (.lookup (.create name type)) ((d.setKind ip type).iget ip)
        (.lockNew name ip type)
  | lockNew {name : Name} {ip : Nat} {type : Kind} : d.holder ip = none →
      CallStep dp me allowed d (.lockNew name ip type) (d.lock me ip) (.link name ip type)
  | link {name : Name} {ip : Nat} {type : Kind} :
      CallStep dp me allowed d (.link name ip type)
        (((d.addLinks ip (1 - d.nlink ip)).addLinks dp (if type = .dir then 1 else 0)).setEntry name (some ip))
        (.unlockDir (.giveBack ip type))
  | opened {ip : Nat} : CallStep dp me allowed d (.returned ip .file) (d.unlock ip) .idle
  | dropped {ip : Nat} {type : Kind} :
      CallStep dp me allowed d (.returned ip type) d (.unlockInode ip .finish)
  | unlockDir {after : AfterPut} :
      CallStep dp me allowed d (.unlockDir after) (d.unlock dp) (.put dp after)
  | unlockInode {ip : Nat} {after : AfterPut} :
      CallStep dp me allowed d (.unlockInode ip after) (d.unlock ip) (.put ip after)
  | put {ip : Nat} {after : AfterPut} : d.holder ip = none →
      CallStep dp me allowed d (.put ip after) (d.lock me ip) (.putHeld ip after)
  | putFree {ip : Nat} {after : AfterPut} : d.nlink ip = 0 → d.ref ip = 1 →
      CallStep dp me allowed d (.putHeld ip after) (d.setKind ip .free) (.putFreed ip after)
  | putKeep {ip : Nat} {after : AfterPut} : ¬(d.nlink ip = 0 ∧ d.ref ip = 1) →
      CallStep dp me allowed d (.putHeld ip after) d (.putFreed ip after)
  | putUnlock {ip : Nat} {after : AfterPut} :
      CallStep dp me allowed d (.putFreed ip after) (d.unlock ip) (.putUnref ip after)
  | putUnref {ip : Nat} {after : AfterPut} :
      CallStep dp me allowed d (.putUnref ip after) (d.unref ip) after.pc

/-- The inode whose lock is kept over an `iput` of the directory. -/
def AfterPut.kept : AfterPut → Option Nat
  | dropLink ip => some ip
  | giveBack ip _ => some ip
  | _ => none

/-- The inodes whose locks are kept over an `iput`. -/
def AfterPut.Holds (dp : Nat) : AfterPut → Nat → Prop
  | fail, j => j = dp
  | after, j => after.kept = some j

/-- The references that a call has besides the one that an `iput` drops. -/
def AfterPut.refs (dp : Nat) : AfterPut → List Nat
  | finish => []
  | walkOn _ next => [next]
  | fail => [dp]
  | dropLink ip => [ip]
  | giveBack ip _ => [ip]
  | openOld ip _ => [ip]

namespace CallPc

variable (dp : Nat)

/-- The inode locks that a process has. -/
def Holds : CallPc → Nat → Prop
  | walkHeld _ ip, j => j = ip
  | lookup _, j | lockFound _ _, j | lockNew _ _ _, j => j = dp
  | erase _ ip, j | link _ ip _, j => j = dp ∨ j = ip
  | returned ip _, j | dropLink ip, j => j = ip
  | unlockDir after, j => j = dp ∨ after.Holds dp j
  | unlockInode ip after, j | putHeld ip after, j | putFreed ip after, j => j = ip ∨ after.Holds dp j
  | put _ after, j | putUnref _ after, j => after.Holds dp j
  | _, _ => False

/-- The inode whose lock a process waits for in `acquiresleep`. -/
def waitsFor : CallPc → Option Nat
  | walk _ ip | lockFound _ ip | lockNew _ ip _ | lockOld ip _ | put ip _ => some ip
  | enter _ => some dp
  | _ => none

/-- The references that a process has to inodes. -/
def refs : CallPc → List Nat
  | idle => []
  | walk _ ip | walkHeld _ ip => [ip]
  | enter _ | lookup _ => [dp]
  | lockFound _ ip | erase _ ip | lockNew _ ip _ | link _ ip _ => [dp, ip]
  | lockOld ip _ | returned ip _ | dropLink ip => [ip]
  | unlockDir after => dp :: after.refs dp
  | unlockInode ip after | put ip after | putHeld ip after | putFreed ip after | putUnref ip after =>
      ip :: after.refs dp

/-- The inode that a process works on with the directory locked. -/
def insideDir : CallPc → Option Nat
  | lockFound _ ip | erase _ ip | lockNew _ ip _ | link _ ip _ | unlockInode ip .fail | put ip
      .fail | putHeld ip .fail
  | putFreed ip .fail | putUnref ip .fail => some ip
  | _ => none

/-- The inode that a process keeps locked while it drops the directory. -/
def keeps : CallPc → Option Nat
  | erase _ ip | lockNew _ ip _ | link _ ip _ => some ip
  | unlockDir after | put _ after | putHeld _ after | putFreed _ after | putUnref _ after => after.kept
  | _ => none

/-- Which combinations occur. -/
def Sound : CallPc → Prop
  | erase _ ip | link _ ip _ => ip ≠ dp
  | unlockDir after => ∀ j, after.Holds dp j → j ≠ dp
  | unlockInode ip after => after.kept = none ∧ ∀ j, after.Holds dp j → j ≠ ip
  | put ip after | putHeld ip after | putFreed ip after | putUnref ip after =>
    (after.kept ≠ none → ip = dp) ∧ ∀ j, after.Holds dp j → j ≠ ip
  | _ => True

end CallPc

namespace CallStep

variable {dp : Nat} {me : Bool} {allowed : DirState → Nat → Prop} {d d' : DirState} {pc pc' : CallPc}
  {after : AfterPut} {ip j : Nat}

/-- A step takes a lock that is free, gives one back, or leaves the locks alone. -/
inductive LockEffect (dp : Nat) (me : Bool) (d : DirState) (pc : CallPc) (d' : DirState) (pc' : CallPc) : Prop
  | none : d'.holder = d.holder → (∀ j, pc'.Holds dp j ↔ pc.Holds dp j) → LockEffect dp me d pc d' pc'
  | takes (x : Nat) : d.holder x = Option.none → d'.holder = update d.holder x (some me) →
      (∀ j, pc'.Holds dp j ↔ pc.Holds dp j ∨ j = x) → LockEffect dp me d pc d' pc'
  | gives (x : Nat) : pc.Holds dp x → d'.holder = update d.holder x Option.none →
      (∀ j, pc'.Holds dp j ↔ pc.Holds dp j ∧ j ≠ x) → LockEffect dp me d pc d' pc'

theorem lockEffect (sound : pc.Sound dp) (step : CallStep dp me allowed d pc d' pc') :
    LockEffect dp me d pc d' pc' := by
  cases step with
  | start | found | ialloc | putFree | putKeep => exact .none rfl fun j => Iff.rfl
  | walkLock free | lockDir free | lockOld free => exact .takes _ free rfl fun j => by simp [CallPc.Holds]
  | walkEnd => exact .none rfl fun j => by simp [CallPc.Holds, AfterPut.Holds, AfterPut.kept]
  | walkFail => exact .none rfl fun j => by simp [CallPc.Holds, AfterPut.Holds, AfterPut.kept]
  | walkOn next dir => exact .none rfl fun j => by simp [CallPc.Holds, AfterPut.Holds, AfterPut.kept]
  | walkDone dir => exact .gives dp rfl rfl fun j => by simp [CallPc.Holds]
  | missing none => exact .none rfl fun j => by simp [CallPc.Holds, AfterPut.Holds, AfterPut.kept]
  | lockFound free | lockNew free => exact .takes _ free rfl fun j => Iff.rfl
  | notEmpty links dir => exact .none rfl fun j => by simp [CallPc.Holds, AfterPut.Holds, or_comm]
  | erase | link => exact .none rfl fun j => by simp [CallPc.Holds, AfterPut.Holds, AfterPut.kept, eq_comm]
  | dropLink => exact .none rfl fun j => by simp [CallPc.Holds, AfterPut.Holds, AfterPut.kept]
  | present entry => exact .none rfl fun j => by simp [CallPc.Holds, AfterPut.Holds, AfterPut.kept]
  | lockOther free kind => exact .takes _ free rfl fun j => by simp [CallPc.Holds, AfterPut.Holds, AfterPut.kept]
  | opened => exact .gives _ rfl rfl fun j => by simp [CallPc.Holds]
  | dropped => exact .none rfl fun j => by simp [CallPc.Holds, AfterPut.Holds, AfterPut.kept]
  | unlockDir =>
    refine .gives dp (.inl rfl) rfl fun j => ⟨fun held => ⟨.inr held, sound j held⟩,
      fun held => held.1.resolve_left held.2⟩
  | unlockInode | putUnlock =>
    refine .gives _ (.inl rfl) rfl fun j =>
      ⟨fun held => ⟨.inr held, sound.2 j held⟩, fun held => held.1.resolve_left held.2⟩
  | put free => exact .takes _ free rfl fun j => or_comm
  | @putUnref _ after =>
    refine .none rfl fun j => ?_
    cases after <;> simp [CallPc.Holds, AfterPut.Holds, AfterPut.kept, AfterPut.pc, eq_comm]

theorem sound (sound : pc.Sound dp) (holds : ∀ j, pc.Holds dp j → d.holder j = some me)
    (step : CallStep dp me allowed d pc d' pc') : pc'.Sound dp := by
  have other : ∀ ip, d.holder ip = none → d.holder dp = some me → ip ≠ dp := by
    rintro ip free held rfl
    rw [free] at held
    cases held
  cases step with
  | lockFound free | lockNew free => exact other _ free (holds dp rfl)
  | notEmpty => exact ⟨rfl, fun j same => same.trans_ne (Ne.symm sound)⟩
  | erase | link =>
    intro j same
    cases same
    exact sound
  | unlockDir => exact ⟨fun _ => rfl, sound⟩
  | unlockInode => exact ⟨fun kept => absurd sound.1 kept, sound.2⟩
  | put | putFree | putKeep | putUnlock => exact sound
  | @putUnref _ after => cases after <;> simp [AfterPut.pc, CallPc.Sound, AfterPut.Holds, AfterPut.kept]
  | _ => simp [CallPc.Sound, AfterPut.Holds, AfterPut.kept]

/-- The reference counts go with the references of the process. -/
theorem refs_le (enough : ∀ j, (pc.refs dp).count j ≤ d.ref j) (step : CallStep dp me allowed d pc d' pc') (j : Nat) :
    d.ref j + (pc'.refs dp).count j ≤ d'.ref j + (pc.refs dp).count j := by
  have gets : ∀ ip, (d.iget ip).ref j = d.ref j + if ip = j then 1 else 0 := by
    intro ip
    by_cases here : ip = j
    · subst here
      simp [DirState.iget]
    · simp [DirState.iget, here, update_of_ne (Ne.symm here)]
  cases step with
  | @putUnref ip after =>
    have enough := enough j
    have same : (after.pc.refs dp).count j = (after.refs dp).count j := by cases after <;> rfl
    have less : (d.unref ip).ref j = d.ref j - if ip = j then 1 else 0 := by
      by_cases here : ip = j
      · subst here
        simp [DirState.unref]
      · simp [DirState.unref, here, update_of_ne (Ne.symm here)]
    rw [same, less]
    simp only [CallPc.refs, List.count_cons, beq_iff_eq] at enough ⊢
    omega
  | ialloc ip _ _ _ =>
    have new : ∀ type, ((d.setKind ip type).iget ip).ref j = (d.iget ip).ref j := fun _ => rfl
    simp only [new, gets, CallPc.refs, List.count_cons, beq_iff_eq, List.count_nil]
    omega
  | _ =>
    simp only [gets, CallPc.refs, AfterPut.refs, List.count_cons, beq_iff_eq, List.count_nil, DirState.lock,
      DirState.unlock, DirState.addLinks, DirState.setKind, DirState.setEntry]
    omega

theorem kept_mem_refs (dp : Nat) (kept : after.kept = some ip) : ip ∈ after.refs dp := by
  cases after <;> simp_all [AfterPut.kept, AfterPut.refs]

/-- Only an inode without a further reference is freed. -/
theorem kind_ne_free (step : CallStep dp me allowed d pc d' pc') (alive : d.kind j ≠ .free)
    (more : ∀ after, pc = .putHeld j after → 1 < d.ref j) : d'.kind j ≠ .free := by
  cases step with
  | @putFree ip after _ last =>
    by_cases here : ip = j
    · subst here
      exact absurd last (Nat.ne_of_gt (more after rfl))
    · simpa only [DirState.setKind, update_of_ne (Ne.symm here)] using alive
  | ialloc ip _ free type =>
    have other : j ≠ ip := by
      rintro rfl
      exact alive free
    simpa only [DirState.iget, DirState.setKind, update_of_ne other] using alive
  | _ => exact alive

theorem keeps_new (sound : pc.Sound dp) (step : CallStep dp me allowed d pc d' pc') (keeps : pc'.keeps = some j) :
    pc.keeps = some j ∨ d'.kind j ≠ .free := by
  cases step with
  | lockFound _ kind =>
    cases keeps
    exact .inr kind
  | ialloc ip _ _ type =>
    cases keeps
    right
    simpa [DirState.iget, DirState.setKind] using type
  | @putUnref _ after => cases after <;> cases keeps
  | unlockInode => exact absurd (sound.1.symm.trans keeps) (by simp)
  | _ => first | exact .inl keeps | cases keeps

/-- An inode that a process keeps is not freed by the process itself. -/
theorem kind_keeps (sound : pc.Sound dp) (alive : ∀ j, pc.keeps = some j → d.kind j ≠ .free)
    (enough : ∀ j, (pc.refs dp).count j ≤ d.ref j) (step : CallStep dp me allowed d pc d' pc')
    (keeps : pc'.keeps = some j) : d'.kind j ≠ .free := by
  rcases step.keeps_new sound keeps with old | new
  · refine step.kind_ne_free (alive j old) fun after here => ?_
    subst here
    have twice := enough j
    have once := List.count_pos_iff.2 (kept_mem_refs dp old)
    rw [CallPc.refs, List.count_cons_self] at twice
    omega
  · exact new

theorem insideDir_new (sound : pc.Sound dp) (step : CallStep dp me allowed d pc d' pc')
    (inside : pc'.insideDir = some ip) :
    pc.insideDir = some ip ∨ allowed d ip ∨ d.kind ip = .free := by
  cases step with
  | found _ fine =>
    cases inside
    exact .inr (.inl fine)
  | ialloc ip _ free _ =>
    cases inside
    exact .inr (.inr free)
  | @unlockDir after => cases after <;> first | exact absurd rfl (sound dp rfl) | cases inside
  | @unlockInode _ after | @put _ after _ | @putFree _ after _ _ | @putKeep _ after _ | @putUnlock _ after =>
    cases after <;> exact .inl inside
  | @putUnref ip after => cases after <;> cases inside
  | _ => first | exact .inl inside | cases inside

theorem insideDir_holds (inside : pc.insideDir = some ip) : pc.Holds dp dp := by
  unfold CallPc.insideDir at inside
  split at inside <;> cases inside <;> simp [CallPc.Holds, AfterPut.Holds]

/-- A process comes to wait for the directory with an inode locked by giving the directory back. -/
theorem waits_new (step : CallStep dp me allowed d pc d' pc')
    (waits : pc' = .put dp after) (kept : after.kept = some ip) : pc.Holds dp dp := by
  cases step with
  | unlockDir => exact .inl rfl
  | unlockInode =>
    cases waits
    exact .inl rfl
  | walkEnd =>
    cases waits
    cases kept
  | @putUnref ip after' => cases after' <;> cases waits
  | _ => cases waits

end CallStep

end MiniOS
