import MiniOS.Fs.DirLocks

namespace MiniOS

open Lib Relation Function

/-- Two processes with calls in directory `dp`. -/
structure DirSystem where
  dir : DirState
  pc : Bool → CallPc

/-- The other process waits in an `iput` of the directory, with the lock of `ip`. -/
def DirSystem.Pending (s : DirSystem) (dp : Nat) (p : Bool) (ip : Nat) : Prop :=
  ∃ after, s.pc p = .put dp after ∧ after.kept = some ip

/-- One of the processes makes a step. -/
inductive DirStep (dp : Nat) (allowed : DirSystem → Bool → Nat → Prop) (s : DirSystem) : DirSystem → Prop
  | step {d' : DirState} {pc' : CallPc} (me : Bool) :
      CallStep dp me (fun _ => allowed s me) s.dir (s.pc me) d' pc' →
      DirStep dp allowed s ⟨d', update s.pc me pc'⟩

/-- Each process waits for a lock that the other one has. -/
def DirSystem.Deadlock (s : DirSystem) (dp : Nat) : Prop :=
  ∃ x y, (s.pc false).waitsFor dp = some x ∧ s.dir.holder x = some true ∧
    (s.pc true).waitsFor dp = some y ∧ s.dir.holder y = some false

/-- What holds as long as `sys_unlink` only goes on with inodes that the other process does not keep. -/
structure DirSystem.Inv (dp : Nat) (s : DirSystem) : Prop where
  sound : ∀ p, (s.pc p).Sound dp
  holder : ∀ j p, s.dir.holder j = some p ↔ (s.pc p).Holds dp j
  refs : ∀ p j, ((s.pc p).refs dp).count j + ((s.pc (!p)).refs dp).count j ≤ s.dir.ref j
  alive : ∀ p j, (s.pc p).keeps = some j → s.dir.kind j ≠ .free
  apart : ∀ p ip, (s.pc p).insideDir = some ip → ¬s.Pending dp (!p) ip

/-- The other process does not keep the inode while it waits for the directory. -/
def DirSystem.Clear (dp : Nat) (s : DirSystem) (me : Bool) (ip : Nat) : Prop := ¬s.Pending dp (!me) ip

namespace DirSystem.Inv

variable {s : DirSystem} {dp : Nat} {me : Bool} {d' : DirState} {pc' : CallPc} {p : Bool}
  {allowed : DirState → Nat → Prop}

theorem pc_self : update s.pc me pc' me = pc' := update_self ..

theorem pc_other (other : p ≠ me) : update s.pc me pc' p = s.pc p := update_of_ne other ..

theorem keeps_mem_refs (dp : Nat) {pc : CallPc} {j : Nat} (keeps : pc.keeps = some j) : j ∈ pc.refs dp := by
  unfold CallPc.keeps at keeps
  split at keeps
  iterate 3
    · cases keeps
      simp [CallPc.refs]
  iterate 5
    · exact .tail _ (CallStep.kept_mem_refs dp keeps)
  · cases keeps

theorem step_holder (inv : s.Inv dp)
    (step : CallStep dp me allowed s.dir (s.pc me) d' pc') (j : Nat) (p : Bool) :
    d'.holder j = some p ↔ (update s.pc me pc' p).Holds dp j := by
  have mine : ∀ x, s.dir.holder x = some me ↔ (s.pc me).Holds dp x := fun x => inv.holder x me
  by_cases who : p = me
  · subst who
    rw [pc_self]
    cases step.lockEffect (inv.sound p) with
    | none holder holds => rw [holder, holds, mine]
    | takes _ _ holder holds | gives _ _ holder holds =>
      rw [holder, holds, ← mine, update_apply]
      split <;> simp_all
  · rw [pc_other who, ← inv.holder]
    cases step.lockEffect (inv.sound me) with
    | none holder holds => rw [holder]
    | takes x free holder holds =>
      rw [holder, update_apply]
      split
      · rename_i here
        subst here
        simp [free, Ne.symm who]
      · rfl
    | gives x held holder holds =>
      rw [holder, update_apply]
      split
      · rename_i here
        subst here
        simp [(mine j).2 held, Ne.symm who]
      · rfl

theorem me_or_other (p me : Bool) : p = me ∨ p = !me := by
  cases p <;> cases me <;> simp

theorem not_pending_of_free (inv : s.Inv dp) {ip : Nat} (free : s.dir.kind ip = .free) :
    ¬s.Pending dp p ip := by
  rintro ⟨after, here, kept⟩
  refine inv.alive p ip ?_ free
  rw [here]
  exact kept

theorem step_refs (inv : s.Inv dp)
    (step : CallStep dp me allowed s.dir (s.pc me) d' pc') (j : Nat) :
    (pc'.refs dp).count j + ((s.pc (!me)).refs dp).count j ≤ d'.ref j := by
  have enough : ∀ j, ((s.pc me).refs dp).count j ≤ s.dir.ref j := fun j =>
    Nat.le_trans (Nat.le_add_right _ _) (inv.refs me j)
  have both := inv.refs me j
  have change := step.refs_le enough j
  omega

/-- The inode that a process keeps is not freed by a step of either process. -/
theorem step_alive (inv : s.Inv dp)
    (step : CallStep dp me allowed s.dir (s.pc me) d' pc') (p : Bool) (j : Nat)
    (keeps : (update s.pc me pc' p).keeps = some j) : d'.kind j ≠ .free := by
  rcases me_or_other p me with rfl | rfl
  · rw [pc_self] at keeps
    exact step.kind_keeps (inv.sound p) (inv.alive p)
      (fun j => Nat.le_trans (Nat.le_add_right _ _) (inv.refs p j)) keeps
  · rw [pc_other (by simp)] at keeps
    refine step.kind_ne_free (inv.alive _ j keeps) fun after here => ?_
    have both := inv.refs me j
    have other := List.count_pos_iff.2 (keeps_mem_refs dp keeps)
    rw [here, CallPc.refs, List.count_cons_self] at both
    omega

theorem step_apart (inv : s.Inv dp) (step : CallStep dp me (fun _ => s.Clear dp me) s.dir (s.pc me) d' pc') (p : Bool)
    (ip : Nat) (inside : (update s.pc me pc' p).insideDir = some ip) :
    ¬Pending ⟨d', update s.pc me pc'⟩ dp (!p) ip := by
  rintro ⟨after, waits, kept⟩
  rcases me_or_other p me with rfl | rfl
  · rw [pc_self] at inside
    have waits : s.pc (!p) = .put dp after := (pc_other (by simp)).symm.trans waits
    rcases step.insideDir_new (inv.sound p) inside with old | clear | free
    · exact inv.apart p ip old ⟨after, waits, kept⟩
    · exact clear ⟨after, waits, kept⟩
    · exact inv.not_pending_of_free free ⟨after, waits, kept⟩
  · rw [pc_other (by simp)] at inside
    rw [Bool.not_not] at waits
    have mine : (s.pc me).Holds dp dp := step.waits_new (pc_self.symm.trans waits) kept
    have other := (inv.holder dp (!me)).2 (CallStep.insideDir_holds inside)
    rw [(inv.holder dp me).2 mine] at other
    simp at other

theorem step {s' : DirSystem} (inv : s.Inv dp) (step : DirStep dp (Clear dp) s s') : s'.Inv dp := by
  obtain @⟨_, _, me, call⟩ := step
  rename_i d' pc'
  refine ⟨fun p => ?_, inv.step_holder call, fun p j => ?_, inv.step_alive call, inv.step_apart call⟩
  · change (update s.pc me pc' p).Sound dp
    by_cases who : p = me
    · subst who
      rw [pc_self]
      exact call.sound (inv.sound p) fun j => (inv.holder j p).2
    · rw [pc_other who]
      exact inv.sound p
  · have refs := inv.step_refs call j
    rcases me_or_other p me with rfl | rfl
    · simpa only [pc_self, pc_other (show (!p) ≠ p by simp)] using refs
    · simpa only [Bool.not_not, pc_self, pc_other (show (!me) ≠ me by simp), Nat.add_comm] using refs

/-- A process that has a lock and waits for another one has the directory, or waits for it. -/
theorem waits_holding {x y : Nat} (inv : s.Inv dp) (waits : (s.pc p).waitsFor dp = some x)
    (holds : (s.pc p).Holds dp y) : (y = dp ∧ (s.pc p).insideDir = some x) ∨ (x = dp ∧ s.Pending dp p y) := by
  have sound := inv.sound p
  unfold Pending
  generalize s.pc p = pc at waits holds sound
  cases pc with
  | lockFound | lockNew => exact .inl ⟨holds, waits⟩
  | put ip after =>
    cases waits
    cases after with
    | fail => exact .inl ⟨holds, rfl⟩
    | dropLink | giveBack =>
      obtain rfl : x = dp := sound.1 (by simp [AfterPut.kept])
      exact .inr ⟨rfl, _, rfl, holds⟩
    | _ => cases holds
  | enter | walk | lockOld => cases holds
  | _ => cases waits

theorem no_deadlock (inv : s.Inv dp) : ¬s.Deadlock dp := by
  rintro ⟨x, y, waits, held, waits', held'⟩
  have once : ¬(x = dp ∧ y = dp) := by
    rintro ⟨hereX, hereY⟩
    rw [hereX] at held
    rw [hereY, held] at held'
    cases held'
  rw [inv.holder] at held held'
  rcases inv.waits_holding waits held' with ⟨here, inside⟩ | ⟨here, pending⟩ <;>
    rcases inv.waits_holding waits' held with ⟨here', inside'⟩ | ⟨here', pending'⟩
  · exact once ⟨here', here⟩
  · exact inv.apart false x inside pending'
  · exact inv.apart true y inside' pending
  · exact once ⟨here, here'⟩

end DirSystem.Inv

/-- Nobody is in a call, and no inode lock is taken. -/
def DirSystem.idle (d : DirState) : DirSystem := ⟨{ d with holder := fun _ => none }, fun _ => .idle⟩

theorem DirSystem.Inv.idle (d : DirState) (dp : Nat) : (DirSystem.idle d).Inv dp where
  sound _ := trivial
  holder j p := by simp [DirSystem.idle, CallPc.Holds]
  refs p j := Nat.zero_le _
  alive p j keeps := by cases keeps
  apart p ip inside := by cases inside

/-- A directory, inode 1, that is the current directory of both processes. -/
def emptyDir : DirState where
  entry _ := none
  kind ip := if ip = 1 then .dir else .free
  nlink ip := if ip = 1 then 1 else 0
  ref ip := if ip = 1 then 2 else 0
  holder _ := none

/-- If `sys_unlink` never finds an inode that the other process keeps locked
while it waits for the directory, two processes with calls of `sys_unlink` and
`create` in one directory never wait for each other. -/
theorem unlink_create_no_deadlock {d : DirState} {dp : Nat} {s : DirSystem}
    (run : ReflTransGen (DirStep dp (DirSystem.Clear dp)) (.idle d) s) : ¬s.Deadlock dp := by
  have inv : s.Inv dp := run_induction DirSystem.Inv.step (DirSystem.Inv.idle d dp) run
  exact inv.no_deadlock

theorem unlink_create_no_deadlock_while_creating : ∃ s,
    ReflTransGen (DirStep 1 (DirSystem.Clear 1)) (.idle emptyDir) s ∧ (s.pc false).waitsFor 1 = some 1 ∧
      s.dir.holder 2 = some false ∧ ¬s.Deadlock 1 := by
  have begun : ReflTransGen (DirStep 1 (DirSystem.Clear 1)) (.idle emptyDir) (.idle emptyDir) := .refl
  have entered := (((begun.tail (.step false (.start (.create [120] .file) 1))).tail
    (.step false (.walkLock rfl (by decide)))).tail (.step false (.walkDone rfl))).tail (.step false (.lockDir rfl))
  have waiting :=
    (((entered.tail (.step false (.ialloc 2 rfl rfl (by decide)))).tail (.step false (.lockNew rfl))).tail
    (.step false .link)).tail (.step false .unlockDir)
  exact ⟨_, waiting, rfl, rfl, unlink_create_no_deadlock waiting⟩

/-- One process creates a file and gives the directory back. Before it locks the
directory again for `iput`, the other one locks it and finds the new file,
which the first process still has locked. -/
theorem unlink_create_deadlock : ∃ s,
    ReflTransGen (DirStep 1 fun _ _ _ => True) (.idle emptyDir) s ∧ s.Deadlock 1 := by
  have begun : ReflTransGen (DirStep 1 fun _ _ _ => True) (.idle emptyDir) (.idle emptyDir) := .refl
  have entered := (((begun.tail (.step false (.start (.create [120] .file) 1))).tail
    (.step false (.walkLock rfl (by decide)))).tail (.step false (.walkDone rfl))).tail (.step false (.lockDir rfl))
  have waiting :=
    (((entered.tail (.step false (.ialloc 2 rfl rfl (by decide)))).tail (.step false (.lockNew rfl))).tail
    (.step false .link)).tail (.step false .unlockDir)
  have entered' := (((waiting.tail (.step true (.start (.unlink [120]) 1))).tail
    (.step true (.walkLock rfl (by decide)))).tail (.step true (.walkDone rfl))).tail (.step true (.lockDir rfl))
  exact ⟨_, entered'.tail (.step true (.found rfl trivial)), 1, 2, rfl, rfl, rfl, rfl⟩

end MiniOS
