import MiniOS.Proc.Sleep

namespace MiniOS

open Function (update_self update_of_ne)

namespace SleepPc

/-- The process holds `lk`. -/
def holdsLk : SleepPc → Bool
  | test => true
  | lockTable => true
  | unlockLk => true
  | take => true
  | leave => true
  | raise => true
  | wakeLock => true
  | scan _ => true
  | wake _ => true
  | wakeUnlock => true
  | _ => false

/-- The process holds `ptable.lock` when it runs. -/
def holdsTable : SleepPc → Bool
  | unlockLk => true
  | setChan => true
  | setState => true
  | sched => true
  | clearChan => true
  | unlockTable => true
  | scan _ => true
  | wake _ => true
  | wakeUnlock => true
  | yieldState _ => true
  | yieldSched _ => true
  | yieldUnlock _ => true
  | _ => false

/-- Where a process is while it does not run. -/
def resumes : SleepPc → Bool
  | clearChan => true
  | yieldUnlock _ => true
  | _ => false

end SleepPc

/-- The scheduler of the processor holds `ptable.lock`. -/
def CpuPc.holdsTable {n : Nat} : CpuPc n → Bool
  | lock => false
  | runs _ => false
  | _ => true

namespace SleepSystem

variable {n : Nat} {cpus : Type} {s t : SleepSystem n cpus} {i j : Fin n} {c d : cpus}

/-- Who holds the locks, and where processes that do not run are. -/
structure Locks (s : SleepSystem n cpus) : Prop where
  exclusive : ∀ c d i, s.cpu c = .runs i → s.cpu d = .runs i → c = d
  placed : ∀ i, (∀ c, s.cpu c ≠ .runs i) → (s.pc i).resumes = true
  lk : ∀ i, (s.pc i).holdsLk = true → ∃ c, s.cpu c = .runs i ∧ s.lk = some c
  table : ∀ c i, s.cpu c = .runs i → (s.pc i).holdsTable = true → s.table = some c
  sched : ∀ c, (s.cpu c).holdsTable = true → s.table = some c

namespace Locks

theorem initial (n : Nat) (cpus : Type) (cond : Bool) : (SleepSystem.initial n cpus cond).Locks where
  exclusive _ _ _ runs := nomatch runs
  placed _ _ := rfl
  lk _ holds := nomatch holds
  table _ _ runs := nomatch runs
  sched _ holds := nomatch holds

section

variable (locks : s.Locks)
include locks

/-- The processor that runs the process that holds `lk` has it. -/
theorem lk_of_holds (runs : s.cpu c = .runs i) (holds : (s.pc i).holdsLk = true) : s.lk = some c := by
  obtain ⟨d, here, held⟩ := locks.lk i holds
  rw [locks.exclusive c d i runs here, held]

/-- At most one process holds `lk`. -/
theorem lk_unique (left : (s.pc i).holdsLk = true) (right : (s.pc j).holdsLk = true) : i = j := by
  obtain ⟨c, runs, held⟩ := locks.lk i left
  obtain ⟨d, runs', held'⟩ := locks.lk j right
  rw [held] at held'
  cases held'
  exact CpuPc.runs.inj (runs.symm.trans runs')

/-- At most one process that runs holds `ptable.lock`. -/
theorem table_unique (runs : s.cpu c = .runs i) (runs' : s.cpu d = .runs j)
    (left : (s.pc i).holdsTable = true) (right : (s.pc j).holdsTable = true) : i = j := by
  have held := locks.table c i runs left
  rw [locks.table d j runs' right] at held
  cases held
  exact CpuPc.runs.inj (runs.symm.trans runs')

/-- While a process has `ptable.lock`, no scheduler has. -/
theorem not_sched (runs : s.cpu c = .runs i) (holds : (s.pc i).holdsTable = true) (d : cpus) :
    (s.cpu d).holdsTable = false := by
  by_contra busy
  have held := locks.sched d (by simpa using busy)
  rw [locks.table c i runs holds] at held
  cases held
  rw [runs] at busy
  exact busy rfl

/-- While one scheduler has `ptable.lock`, nobody else has. -/
theorem alone_in_table (busy : (s.cpu c).holdsTable = true) :
    (∀ d j, s.cpu d = .runs j → (s.pc j).holdsTable = false) ∧ ∀ d, d ≠ c → (s.cpu d).holdsTable = false := by
  have held := locks.sched c busy
  refine ⟨fun d j on => ?_, fun d different => ?_⟩
  · by_contra has
    rw [locks.table d j on (by simpa using has)] at held
    cases held
    rw [on] at busy
    cases busy
  · by_contra has
    rw [locks.sched d (by simpa using has)] at held
    exact different (Option.some.inj held)

/-- A step of process `i` that does not leave processor `c` keeps the invariant,
if a lock that it takes was free and a lock that it gives back was its own. -/
theorem stay (runs : s.cpu c = .runs i) (cpu : t.cpu = s.cpu) (other : ∀ j, j ≠ i → t.pc j = s.pc j)
    (lk : (t.pc i).holdsLk = true → t.lk = some c) (lkOther : ∀ j, j ≠ i → (s.pc j).holdsLk = true → t.lk = s.lk)
    (table : (t.pc i).holdsTable = true → t.table = some c)
    (tableOther : ∀ d j, j ≠ i → s.cpu d = .runs j → (s.pc j).holdsTable = true → t.table = s.table)
    (sched : ∀ d, (s.cpu d).holdsTable = true → t.table = s.table) : t.Locks := by
  refine ⟨fun d e j left right => locks.exclusive d e j (cpu ▸ left) (cpu ▸ right),
    fun j off => ?_, fun j holds => ?_,
    fun d j on holds => ?_, fun d holds => ?_⟩
  · rw [cpu] at off
    have different : j ≠ i := fun same => off c (same ▸ runs)
    rw [other j different]
    exact locks.placed j off
  · rw [cpu]
    by_cases me : j = i
    · rw [me] at holds ⊢
      exact ⟨c, runs, lk holds⟩
    · rw [other j me] at holds
      rw [lkOther j me holds]
      exact locks.lk j holds
  · rw [cpu] at on
    by_cases me : j = i
    · rw [me] at holds on
      rw [locks.exclusive d c i on runs]
      exact table holds
    · rw [other j me] at holds
      rw [tableOther d j me on holds]
      exact locks.table d j on holds
  · rw [cpu] at holds
    rw [sched d holds]
    exact locks.sched d holds

end

end Locks

variable [DecidableEq cpus]

/-- What a step of process `i` on processor `c` does to the locks. -/
inductive LockMove (i : Fin n) (c : cpus) (s t : SleepSystem n cpus) : Prop
  | keep {a b : SleepPc} : s.pc i = a → t.pc i = b → t.cpu = s.cpu → t.lk = s.lk → t.table = s.table →
      b.holdsLk = a.holdsLk → b.holdsTable = a.holdsTable → LockMove i c s t
  | takeLk {a b : SleepPc} : s.pc i = a → t.pc i = b → t.cpu = s.cpu → s.lk = none →
      t.lk = some c → t.table = s.table →
      b.holdsTable = a.holdsTable → LockMove i c s t
  | giveLk {a b : SleepPc} : s.pc i = a → t.pc i = b → t.cpu = s.cpu → t.table = s.table → a.holdsLk = true →
      b.holdsLk = false → b.holdsTable = a.holdsTable → LockMove i c s t
  | takeTable {a b : SleepPc} : s.pc i = a → t.pc i = b → t.cpu = s.cpu → s.table = none → t.table = some c →
      t.lk = s.lk → b.holdsLk = a.holdsLk → LockMove i c s t
  | giveTable {a b : SleepPc} : s.pc i = a → t.pc i = b → t.cpu = s.cpu → t.lk = s.lk → a.holdsTable = true →
      b.holdsLk = a.holdsLk → b.holdsTable = false → LockMove i c s t
  | leaves {a b : SleepPc} : s.pc i = a → t.pc i = b → t.cpu = Function.update s.cpu c (.back i) → t.lk = s.lk →
      t.table = s.table → a.holdsTable = true → b.holdsLk = false → b.resumes = true → LockMove i c s t

theorem ProcMove.other (move : ProcMove i c s t) (different : j ≠ i) : t.pc j = s.pc j := by
  cases move <;> exact update_of_ne different ..

theorem ProcMove.locks (move : ProcMove i c s t) : LockMove i c s t := by
  cases move with
  | waitLock here free => exact .takeLk here (update_self ..) rfl free rfl rfl rfl
  | sleeps here | found here | setChan here | setState here | clearChan here | take here | raise here
  | scanHit _ here | scanMiss _ here | wake _ here | scanEnd here | yieldState _ here =>
    exact .keep here (update_self ..) rfl rfl rfl rfl rfl
  | lockTable here free | wakeLock here free | yieldLock _ here free =>
    exact .takeTable here (update_self ..) rfl free rfl rfl rfl
  | unlockLk here | leave here => exact .giveLk here (update_self ..) rfl rfl rfl rfl rfl
  | sched here | yieldSched _ here => exact .leaves here (update_self ..) rfl rfl rfl rfl rfl rfl
  | unlockTable here | wakeUnlock here => exact .giveTable here (update_self ..) rfl rfl rfl rfl rfl
  | relock here free | signalLock here free => exact .takeLk here (update_self ..) rfl free rfl rfl rfl
  | yield back here => cases back <;> exact .keep here (update_self ..) rfl rfl rfl rfl rfl
  | yieldUnlock back here => cases back <;> exact .giveTable here (update_self ..) rfl rfl rfl rfl rfl

namespace Locks

/-- A process that leaves its processor hands `ptable.lock` to the scheduler. -/
theorem leaves (locks : s.Locks) (runs : s.cpu c = .runs i) (other : ∀ j, j ≠ i → t.pc j = s.pc j)
    (cpu : t.cpu = Function.update s.cpu c (.back i)) (lk : t.lk = s.lk) (table : t.table = s.table)
    (holds : (s.pc i).holdsTable = true) (gone : (t.pc i).holdsLk = false) (resumes : (t.pc i).resumes = true) :
    t.Locks := by
  have on : ∀ d j, t.cpu d = .runs j → d ≠ c ∧ j ≠ i ∧ s.cpu d = .runs j := by
    intro d j here
    rw [cpu] at here
    by_cases same : d = c
    · rw [same, update_self] at here
      cases here
    · rw [update_of_ne same] at here
      refine ⟨same, ?_, here⟩
      rintro rfl
      exact same (locks.exclusive d c j here runs)
  refine ⟨fun d e j left right => locks.exclusive d e j (on d j left).2.2 (on e j right).2.2, fun j off => ?_,
    fun j has => ?_, fun d j here has => ?_, fun d has => ?_⟩
  · by_cases me : j = i
    · rw [me]
      exact resumes
    · rw [other j me]
      refine locks.placed j fun d here => off d ?_
      have different : d ≠ c := by
        rintro rfl
        exact me (CpuPc.runs.inj (here.symm.trans runs))
      rw [cpu, update_of_ne different, here]
  · have me : j ≠ i := by
      rintro rfl
      rw [gone] at has
      cases has
    rw [other j me] at has
    obtain ⟨d, here, held⟩ := locks.lk j has
    have different : d ≠ c := by
      rintro rfl
      exact me (CpuPc.runs.inj (here.symm.trans runs))
    exact ⟨d, by rw [cpu, update_of_ne different, here], lk.trans held⟩
  · obtain ⟨_, me, before⟩ := on d j here
    rw [other j me] at has
    exact table.trans (locks.table d j before has)
  · by_cases same : d = c
    · rw [same, table]
      exact locks.table c i runs holds
    · rw [cpu, update_of_ne same] at has
      exact table.trans (locks.sched d has)

theorem procMove (locks : s.Locks) (runs : s.cpu c = .runs i) (move : ProcMove i c s t) : t.Locks := by
  have other : ∀ j, j ≠ i → t.pc j = s.pc j := fun j different => move.other different
  cases move.locks with
  | keep here there cpu lk table sameLk sameTable =>
    rw [← there, ← here] at sameLk sameTable
    refine locks.stay runs cpu other (fun holds => ?_) (fun _ _ _ => lk) (fun holds => ?_) (fun _ _ _ _ _ => table)
      fun _ _ => table
    · exact lk.trans (locks.lk_of_holds runs (sameLk ▸ holds))
    · exact table.trans (locks.table c i runs (sameTable ▸ holds))
  | takeLk here there cpu free held table sameTable =>
    rw [← there, ← here] at sameTable
    refine locks.stay runs cpu other (fun _ => held) (fun j _ holds => ?_) (fun holds => ?_) (fun _ _ _ _ _ => table)
      fun _ _ => table
    · obtain ⟨d, _, taken⟩ := locks.lk j holds
      rw [free] at taken
      cases taken
    · exact table.trans (locks.table c i runs (sameTable ▸ holds))
  | giveLk here there cpu table holds gone sameTable =>
    rw [← here] at holds
    rw [← there] at gone
    rw [← there, ← here] at sameTable
    refine locks.stay runs cpu other (fun has => ?_) (fun j different has => ?_) (fun has => ?_)
      (fun _ _ _ _ _ => table)
      fun _ _ => table
    · rw [gone] at has
      cases has
    · exact absurd (locks.lk_unique has holds) different
    · exact table.trans (locks.table c i runs (sameTable ▸ has))
  | takeTable here there cpu free held lk sameLk =>
    rw [← there, ← here] at sameLk
    refine locks.stay runs cpu other (fun holds => ?_) (fun _ _ _ => lk) (fun _ => held) (fun d j _ on holds => ?_)
      fun d holds => ?_
    · exact lk.trans (locks.lk_of_holds runs (sameLk ▸ holds))
    · rw [locks.table d j on holds] at free
      cases free
    · rw [locks.sched d holds] at free
      cases free
  | giveTable here there cpu lk holds sameLk gone =>
    rw [← here] at holds
    rw [← there] at gone
    rw [← there, ← here] at sameLk
    refine locks.stay runs cpu other (fun has => ?_) (fun _ _ _ => lk) (fun has => ?_)
      (fun d j different on has => ?_)
      fun d has => ?_
    · exact lk.trans (locks.lk_of_holds runs (sameLk ▸ has))
    · rw [gone] at has
      cases has
    · exact absurd (locks.table_unique on runs has holds) different
    · rw [locks.not_sched runs holds d] at has
      cases has
  | leaves here there cpu lk table holds gone resumes =>
    exact locks.leaves runs other cpu lk table (here ▸ holds) (there ▸ gone) (there ▸ resumes)

/-- A step of a scheduler, whose processor gets the place `place`. -/
theorem scheds (locks : s.Locks) {place : CpuPc n} (cpu : t.cpu = Function.update s.cpu c place)
    (alone : ∀ i, s.cpu c ≠ .runs i) (pc : t.pc = s.pc) (lk : t.lk = s.lk)
    (table : ∀ d j, s.cpu d = .runs j → (s.pc j).holdsTable = true → t.table = s.table)
    (sched : ∀ d, d ≠ c → (s.cpu d).holdsTable = true → t.table = s.table)
    (own : place.holdsTable = true → t.table = some c)
    (new : ∀ k, place = .runs k → (∀ d, s.cpu d ≠ .runs k) ∧ t.table = some c) : t.Locks := by
  have on : ∀ d j, t.cpu d = .runs j → (d = c ∧ place = .runs j) ∨ s.cpu d = .runs j := by
    intro d j here
    rw [cpu] at here
    by_cases same : d = c
    · rw [same, update_self] at here
      exact .inl ⟨same, here⟩
    · rw [update_of_ne same] at here
      exact .inr here
  have kept : ∀ d j, s.cpu d = .runs j → t.cpu d = .runs j := by
    intro d j here
    have different : d ≠ c := by
      rintro rfl
      exact alone j here
    rw [cpu, update_of_ne different, here]
  refine ⟨fun d e j left right => ?_, fun j off => ?_, fun j has => ?_, fun d j here has => ?_, fun d has => ?_⟩
  · rcases on d j left with ⟨rfl, here⟩ | before
    · rcases on e j right with ⟨rfl, _⟩ | before'
      · rfl
      · exact absurd before' ((new j here).1 e)
    · rcases on e j right with ⟨rfl, here⟩ | before'
      · exact absurd before ((new j here).1 d)
      · exact locks.exclusive d e j before before'
  · rw [pc]
    exact locks.placed j fun d here => off d (kept d j here)
  · rw [pc] at has
    obtain ⟨d, here, held⟩ := locks.lk j has
    exact ⟨d, kept d j here, lk.trans held⟩
  · rw [pc] at has
    rcases on d j here with ⟨rfl, place⟩ | before
    · exact (new j place).2
    · rw [table d j before has]
      exact locks.table d j before has
  · by_cases same : d = c
    · rw [cpu, same, update_self] at has
      rw [same]
      exact own has
    · rw [cpu, update_of_ne same] at has
      rw [sched d same has]
      exact locks.sched d has

theorem cpuMove (locks : s.Locks) (move : CpuMove c s t)
    (chosen : ∀ k, s.cpu c = .switch k → ∀ d, s.cpu d ≠ .runs k) : t.Locks := by
  cases move with
  | lock here free =>
    refine locks.scheds rfl (by rw [here]; nofun) rfl rfl (fun d j on holds => ?_)
      (fun d _ holds => ?_) (fun _ => rfl) nofun
    · rw [locks.table d j on holds] at free
      cases free
    · rw [locks.sched d holds] at free
      cases free
  | skip _ here | pick _ here | setRunning _ here | back _ here =>
    exact locks.scheds rfl (by rw [here]; nofun) rfl rfl (fun _ _ _ _ => rfl) (fun _ _ _ => rfl)
      (fun _ => locks.sched c (by rw [here]; rfl)) nofun
  | switch k here =>
    refine locks.scheds rfl (by rw [here]; nofun) rfl rfl (fun _ _ _ _ => rfl) (fun _ _ _ => rfl) nofun
      fun i place => ?_
    cases place
    exact ⟨chosen k here, locks.sched c (by rw [here]; rfl)⟩
  | unlock here =>
    obtain ⟨procs, scheds⟩ := locks.alone_in_table (c := c) (by rw [here]; rfl)
    refine locks.scheds rfl (by rw [here]; nofun) rfl rfl (fun d j on holds => ?_)
      (fun d different holds => ?_) nofun nofun
    · rw [procs d j on] at holds
      cases holds
    · rw [scheds d different] at holds
      cases holds

end Locks

end SleepSystem

end MiniOS
