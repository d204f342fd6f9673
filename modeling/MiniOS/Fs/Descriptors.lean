import MiniOS.Fs.Discipline

namespace MiniOS

open Lib Function

variable {procs : Fin nproc → ProcFiles} {p : Fin nproc} {fd : Fin nofile} {s : Fs} {err : Stop → Prop}

/-- The processes after the assignment of a descriptor. -/
def descr (procs : Fin nproc → ProcFiles) (p : Fin nproc) (fd : Fin nofile) (f : Option (Fin nfile)) :
    Fin nproc → ProcFiles :=
  update procs p { procs p with ofile := update (procs p).ofile fd f }

theorem descr_self (procs : Fin nproc → ProcFiles) (p : Fin nproc) (fd : Fin nofile) (f : Option (Fin nfile)) :
    (descr procs p fd f p).ofile fd = f := by
  simp only [descr, update_self]

theorem descr_of_ne {fd' : Fin nofile} (other : fd' ≠ fd) (f : Option (Fin nfile)) :
    (descr procs p fd f p).ofile fd' = (procs p).ofile fd' := by
  simp only [descr, update_self, update_of_ne other]

theorem descr_state (procs : Fin nproc → ProcFiles) (p q : Fin nproc) (fd : Fin nofile) (f : Option (Fin nfile)) :
    (descr procs p fd f q).state = (procs q).state := by
  by_cases here : q = p
  · subst here
    simp only [descr, update_self]
  · simp only [descr, update_of_ne here]

theorem descr_descr (procs : Fin nproc → ProcFiles) (p : Fin nproc) (fd : Fin nofile) (f g : Option (Fin nfile)) :
    descr (descr procs p fd f) p fd g = descr procs p fd g := by
  simp only [descr, update_self, update_idem]

theorem descr_eq_self {f : Option (Fin nfile)}
    (here : (procs p).ofile fd = f) : descr procs p fd f = procs := by
  simp only [descr, ← here, update_eq_self]

/-- `filealloc` takes a file that has no references. -/
theorem filealloc_spec : wp filealloc s (fun r t => match r with
    | none => t = s
    | some f => (s.ftable f).ref = 0 ∧ t = s.setFile f { s.ftable f with ref := 1 }) err := by
  change wp (match (List.finRange nfile).find? fun f => _ with | none => _ | some f => _) s _ _
  split
  · exact rfl
  · rename_i f found
    have free := List.find?_some found
    simp only [decide_eq_true_eq] at free
    exact ⟨free, rfl⟩

/-- `fdalloc` takes a descriptor that is not in use. -/
theorem fdalloc_spec {f : Fin nfile} : wp (fdalloc p f) s (fun r t => match r with
    | none => t = s
    | some fd => (s.proc p).ofile fd = none ∧ t = { s with proc := descr s.proc p fd (some f) }) err := by
  change wp (match (List.finRange nofile).find? fun fd => _ with | none => _ | some fd => _) s _ _
  split
  · exact rfl
  · rename_i fd found
    have free := List.find?_some found
    simp only [decide_eq_true_eq] at free
    exact ⟨free, rfl⟩

/-- `kalloc` gives out pages that are not in use. -/
def FsCall.PageFree (s : Fs) : FsCall → Prop
  | .pipe _ (some page) => s.pipe page = none
  | _ => True

/-- The process exists and has not exited. -/
def ProcFiles.Alive (e : ProcFiles) : Prop := e.state ≠ .unused ∧ e.state ≠ .zombie

instance : DecidablePred ProcFiles.Alive := fun _ => inferInstanceAs (Decidable (_ ∧ _))

/-- An invariant over the references to inodes and files that a call holds, with
the processes `procs` whose references count as theirs and the process table as
it is in memory. The two tables differ where a call counts a reference of a
process as its own. -/
structure FileDiscipline
    (inv : Multiset (Fin nfile) → (Fin nproc → ProcFiles) → (Fin nproc → ProcFiles) → Multiset Handle → Fs → Prop)
    (err : Stop → Prop) : Prop where
  names : ∀ F procs, Discipline (inv F procs procs) err
  table : ∀ {F procs table X s}, inv F procs table X s → s.proc = table
  idle : ∀ {F procs table X s p}, inv F procs table X s → (procs p).state = .unused →
    (∀ fd, (procs p).ofile fd = none) ∧ (procs p).cwd = none
  opened : ∀ {F procs table X s p fd f}, inv F procs table X s → (procs p).ofile fd = some f → 0 < (s.ftable f).ref
  retable : ∀ {F procs table X s} (new : Fin nproc → ProcFiles) (pid : Nat), inv F procs table X s →
    inv F procs new X { s with proc := new, nextpid := pid }
  give : ∀ {F procs table X s p fd f}, inv (f ::ₘ F) procs table X s → (procs p).state ≠ .unused →
    (procs p).ofile fd = none →
    inv F (descr procs p fd (some f)) table X s
  seize : ∀ {F procs table X s p fd f}, inv F procs table X s → (procs p).state ≠ .unused →
    (procs p).ofile fd = some f →
    inv (f ::ₘ F) (descr procs p fd none) table X s
  giveCwd : ∀ {F procs table X s p h} {e : ProcFiles}, inv F procs table (h ::ₘ X) s → (procs p).cwd = none →
    e.ofile = (procs p).ofile → e.state ≠ .unused → e.cwd = some h.ip → inv F (update procs p e) table X s
  seizeCwd : ∀ {F procs table X s p ip} {e : ProcFiles}, inv F procs table X s → (procs p).cwd = some ip →
    e.ofile = (procs p).ofile → e.state ≠ .unused → e.cwd = none →
    inv F (update procs p e) table (⟨ip, (s.icache ip).inum, false⟩ ::ₘ X) s
  restate : ∀ {F procs table X s p} {e : ProcFiles}, inv F procs table X s → e.ofile = (procs p).ofile →
    e.cwd = (procs p).cwd →
    (e.state = .unused → (procs p).state = .unused) → inv F (update procs p e) table X s
  iput : ∀ {F procs table X s h}, inv F procs table (h ::ₘ X) s →
    wp (iput h.ip) s (fun _ t => inv F procs table X t) err
  filedup : ∀ {F procs table X s f}, inv F procs table X s → 0 < (s.ftable f).ref →
    wp (filedup f) s (fun r t => r = f ∧ inv (f ::ₘ F) procs table X t) err
  fileclose : ∀ {F procs table X s f}, inv (f ::ₘ F) procs table X s →
    wp (fileclose f) s (fun _ t => inv F procs table X t) err
  pipealloc : ∀ {F procs table X s page}, inv F procs table X s → (∀ q, page = some q → s.pipe q = none) →
    wp (pipealloc page) s (fun r t => match r with
      | none => inv F procs table X t
      | some (f0, f1) => inv (f1 ::ₘ f0 ::ₘ F) procs table X t) err
  fileread : ∀ {F procs table X s f n}, inv F procs table X s → 0 < (s.ftable f).ref →
    wp (fileread f n) s (fun _ t => inv F procs table X t) err
  filewrite : ∀ {F procs table X s f src}, inv F procs table X s → 0 < (s.ftable f).ref →
    wp (filewrite f src) s (fun _ t => inv F procs table X t) err
  filealloc : ∀ {F procs table X s f}, inv F procs table X s → (s.ftable f).ref = 0 → (s.ftable f).type = .none ∧
    inv (f ::ₘ F) procs table X (s.setFile f { s.ftable f with ref := 1 })
  opens : ∃ typed : Dinode → Prop,
    (∀ {F procs X s p path omode}, inv F procs procs X s → wp (openInode p path omode) s (fun r t => match r with
      | none => inv F procs procs X t
      | some ip => ∃ i, inv F procs procs (⟨ip, i, true⟩ ::ₘ X) t ∧ (omode ≠ 0 → typed (t.icache ip).d)) err) ∧
    ∀ {F procs table X s ip i f} {e : File}, inv F procs table (⟨ip, i, true⟩ ::ₘ X) s → (s.ftable f).type = .none →
      0 < (s.ftable f).ref → e.ref = (s.ftable f).ref → e.type = .inode → e.ip = ip →
      (e.writable = true → typed (s.icache ip).d) → inv F procs table X (s.setFile f e)

namespace FileDiscipline

variable
  {inv : Multiset (Fin nfile) → (Fin nproc → ProcFiles) → (Fin nproc → ProcFiles) → Multiset Handle → Fs → Prop}
  {err : Stop → Prop} {F : Multiset (Fin nfile)} {procs table : Fin nproc → ProcFiles} {X : Multiset Handle}
  {s : Fs} {p : Fin nproc} {fd : Fin nofile} {f : Fin nfile} {n : Int}

section

variable (dis : FileDiscipline inv err) {list : List (Fin nofile)}
include dis

theorem now (right : inv F procs procs X s) : inv F s.proc s.proc X s := by rwa [dis.table right]

theorem sysOpen {args : Option (Bytes × BitVec 32)} (right : inv F procs procs X s)
    (alive : (procs p).state ≠ .unused) : wp (sysOpen p args) s (fun _ t => inv F t.proc t.proc X t) err := by
  obtain ⟨typed, openInode, openFile⟩ := dis.opens
  have names := dis.names F procs
  unfold MiniOS.sysOpen
  split
  · exact dis.now right
  · rename_i path omode
    refine wp_seq (openInode right) fun found t right => ?_
    cases found with
    | none => exact dis.now right
    | some ip =>
      obtain ⟨i, right, mode⟩ := right
      refine wp_seq filealloc_spec fun f u taken => ?_
      cases f with
      | none =>
        subst taken
        exact wp_seq (names.iunlockput right) fun _ _ right => dis.now right
      | some f =>
        obtain ⟨zero, rfl⟩ := taken
        obtain ⟨type, right⟩ := dis.filealloc right zero
        have type : ((t.setFile f { t.ftable f with ref := 1 }).ftable f).type = .none := by
          simp only [Fs.setFile, update_self]
          exact type
        have mode : omode ≠ 0 → typed ((t.setFile f { t.ftable f with ref := 1 }).icache ip).d := mode
        generalize t.setFile f _ = u at type mode right ⊢
        refine wp_seq fdalloc_spec fun fd u' taken => ?_
        cases fd with
        | none =>
          subst taken
          refine wp_seq (dis.fileclose right) fun _ _ right => wp_seq (names.iunlockput right) fun _ _ right => ?_
          exact dis.now right
        | some fd =>
          obtain ⟨free, rfl⟩ := taken
          rw [dis.table right] at free ⊢
          have given := dis.give (dis.retable (descr procs p fd (some f)) u.nextpid right) alive free
          have stops := names.other (.panic "iunlock") (by decide) (by decide)
          have unlocks := wp_and ((dis.names F _).iunlock ip given) (iunlock_spec stops)
          refine wp_seq (wp_mono unlocks (fun _ _ => id) fun _ => And.left) ?_
          rintro _ _ ⟨given, rfl⟩
          refine dis.now (openFile given type (dis.opened given (descr_self _ p fd _)) rfl rfl rfl fun writes => ?_)
          simp only [Fs.setInode, update_self]
          refine mode fun zero => ?_
          subst zero
          exact absurd writes (show ¬decide (0 &&& oWronly ≠ 0 ∨ 0 &&& oRdwr ≠ 0) = true by decide)

theorem trap : err (.panic "trap") :=
  (dis.names 0 fun _ => ⟨.unused, 0, fun _ => none, none⟩).other _ (by decide) (by decide)

theorem setOfile (right : inv F procs table X s) (new : Option (Fin nfile)) :
    wp (setOfile p fd new) s (fun _ t => inv F procs (descr table p fd new) X t) err := by
  have after := dis.retable (descr table p fd new) s.nextpid right
  rw [← dis.table right] at after ⊢
  exact after

theorem modifyProc (right : inv F procs table X s) (g : ProcFiles → ProcFiles) :
    wp (modifyProc p g) s (fun _ t => inv F procs (update table p (g (table p))) X t) err := by
  have after := dis.retable (update table p (g (table p))) s.nextpid right
  rw [← dis.table right] at after ⊢
  exact after

theorem fdalloc (right : inv F procs table X s) :
    wp (fdalloc p f) s (fun r t => match r with
      | none => inv F procs table X t
      | some fd => (table p).ofile fd = none ∧ inv F procs (descr table p fd (some f)) X t) err := by
  refine wp_mono fdalloc_spec (fun r t after => ?_) fun _ => id
  cases r with
  | none =>
    subst after
    exact right
  | some fd =>
    obtain ⟨free, rfl⟩ := after
    rw [dis.table right] at free ⊢
    exact ⟨free, dis.retable _ s.nextpid right⟩

section

variable (right : inv F procs procs X s)
include right

theorem argfd :
    wp (argfd p n) s (fun r t => inv F procs procs X t ∧ ∀ fd f, r = some (fd, f) →
      (procs p).ofile fd = some f) err := by
  refine wp_get_seq ?_
  split
  · refine ⟨right, fun fd f found => ?_⟩
    obtain ⟨g, here, same⟩ := Option.map_eq_some_iff.1 found
    cases same
    rw [← dis.table right]
    exact here
  · exact ⟨right, nofun⟩

theorem sysDup (alive : (procs p).state ≠ .unused) :
    wp (sysDup p n) s (fun _ t => inv F t.proc t.proc X t) err := by
  refine wp_seq (dis.argfd right) fun found t ⟨right, here⟩ => ?_
  cases found with
  | none => exact dis.now right
  | some found =>
    have here := here _ _ rfl
    refine wp_seq (dis.fdalloc right) fun new t right => ?_
    cases new with
    | none => exact dis.now right
    | some new =>
      obtain ⟨free, right⟩ := right
      refine wp_seq (dis.filedup right (dis.opened right here)) fun _ t ⟨_, right⟩ => ?_
      exact dis.now (dis.give right alive free)

theorem sysRead {count : Option Nat} : wp (sysRead p n count) s (fun _ t => inv F procs procs X t) err := by
  refine wp_seq (dis.argfd right) fun found t ⟨right, here⟩ => ?_
  split
  · exact dis.fileread right (dis.opened right (here _ _ rfl))
  · exact right

theorem sysWrite {src : Option Bytes} : wp (sysWrite p n src) s (fun _ t => inv F procs procs X t) err := by
  refine wp_seq (dis.argfd right) fun found t ⟨right, here⟩ => ?_
  split
  · exact wp_seq (dis.filewrite right (dis.opened right (here _ _ rfl))) fun _ _ right => right
  · exact right

theorem sysClose (alive : (procs p).state ≠ .unused) :
    wp (sysClose p n) s (fun _ t => inv F t.proc t.proc X t) err := by
  refine wp_seq (dis.argfd right) fun found t ⟨right, here⟩ => ?_
  cases found with
  | none => exact dis.now right
  | some found =>
    refine wp_seq (dis.setOfile (dis.seize right alive (here _ _ rfl)) none) fun _ t right => ?_
    exact wp_seq (dis.fileclose right) fun _ t right => dis.now right

theorem sysChdir {path : Option Bytes} (alive : (procs p).state ≠ .unused) :
    wp (sysChdir p path) s (fun _ t => inv F t.proc t.proc X t) err := by
  have names := dis.names F procs
  unfold MiniOS.sysChdir
  split
  · exact dis.now right
  · refine wp_seq (names.namei right) fun found t right => ?_
    cases found with
    | none => exact dis.now right
    | some ip =>
      obtain ⟨i, b, right⟩ := right
      refine wp_seq (names.ilock right) fun _ t right => wp_inode ip (wp_ite (fun _ => ?_) fun _ => ?_)
      · exact wp_seq (names.iunlockput right) fun _ t right => dis.now right
      · refine wp_seq (names.iunlock ip right) fun _ t right => wp_seq (wp_cwd (fun _ => dis.trap) fun old here => ?_)
          fun _ _ next => next
        rw [dis.table right] at here
        refine wp_seq (dis.iput (dis.seizeCwd right here rfl alive rfl (e := { procs p with cwd := none })))
          fun _ t right => ?_
        refine wp_seq (dis.modifyProc right _) fun _ t right => ?_
        have given := dis.giveCwd (p := p) (e := { procs p with cwd := some ip }) right (by rw [update_self])
          (by rw [update_self]) alive rfl
        rw [update_idem] at given
        exact dis.now given

theorem sysPipe {arg : Bool} {page : Option Nat} (alive : (procs p).state ≠ .unused)
    (fresh : ∀ q, page = some q → s.pipe q = none) :
    wp (sysPipe p arg page) s (fun _ t => inv F t.proc t.proc X t) err := by
  refine wp_ite (fun _ => dis.now right) fun _ => wp_seq (dis.pipealloc right fresh) fun files t right => ?_
  cases files with
  | none => exact dis.now right
  | some files =>
    obtain ⟨rf, wf⟩ := files
    change inv (wf ::ₘ rf ::ₘ F) procs procs X t at right
    have both : ∀ {t : Fs}, inv (wf ::ₘ rf ::ₘ F) procs procs X t →
        wp (do MiniOS.fileclose rf; MiniOS.fileclose wf; pure (-1)) t
        (fun (_ : Int) t => inv F t.proc t.proc X t) err := by
      intro t right
      rw [Multiset.cons_swap] at right
      exact wp_seq (dis.fileclose right) fun _ _ right => wp_seq (dis.fileclose right) fun _ _ right => dis.now right
    refine wp_seq (dis.fdalloc right) fun fd0 t first => ?_
    cases fd0 with
    | none => exact both first
    | some fd0 =>
      obtain ⟨free0, right⟩ := first
      refine wp_seq (dis.fdalloc right) fun fd1 t second => ?_
      cases fd1 with
      | none =>
        refine wp_seq (dis.setOfile second none) fun _ t right => both ?_
        rwa [descr_descr, descr_eq_self free0] at right
      | some fd1 =>
        obtain ⟨free1, right⟩ := second
        rw [Multiset.cons_swap] at right
        exact dis.now (dis.give (dis.give right alive free0) (by rwa [descr_state]) free1)

end

/-- The descriptors of the new process are free before the loop of `fork` copies
those of its parent. -/
theorem forkFiles {np : Fin nproc} (nodup : list.Nodup) (right : inv F procs procs X s)
    (alive : (procs np).state ≠ .unused) (free : ∀ fd ∈ list, (procs np).ofile fd = none) :
    wp (forkFiles p np list) s (fun _ t => inv F t.proc t.proc X t ∧ (t.proc np).state ≠ .unused ∧
      (t.proc np).cwd = (procs np).cwd) err := by
  induction list generalizing s procs with
  | nil =>
    rw [← dis.table right] at alive ⊢
    exact ⟨dis.now right, alive, rfl⟩
  | cons fd rest ih =>
    have later := List.nodup_cons.1 nodup
    refine wp_get_seq ?_
    cases here : (s.proc p).ofile fd with
    | none => exact ih later.2 right alive fun fd' mem => free fd' (.tail fd mem)
    | some f =>
      rw [dis.table right] at here
      refine wp_seq (dis.filedup right (dis.opened right here)) fun g t ⟨same, right⟩ => ?_
      subst same
      refine wp_seq (dis.setOfile right (some g)) fun _ t right => ?_
      have given := dis.give right alive (free fd (.head _))
      refine wp_mono (ih later.2 given (by rwa [descr_state]) fun fd' mem => ?_) (fun _ t after => ?_) fun _ => id
      · rw [descr_of_ne]
        · exact free fd' (.tail fd mem)
        · rintro rfl
          exact later.1 mem
      · refine ⟨after.1, after.2.1, after.2.2.trans ?_⟩
        rw [descr, update_self]

theorem fork {memory : Bool} (right : inv F procs procs X s) :
    wp (fork p memory) s (fun _ t => inv F t.proc t.proc X t) err := by
  refine wp_get_seq ?_
  split
  · exact dis.now right
  · rename_i np found
    have idle := List.find?_some found
    simp only [decide_eq_true_eq] at idle
    rw [dis.table right] at idle
    have free := dis.idle right idle
    have counter : wp (modify fun s => { s with nextpid := s.nextpid + 1 }) s
        (fun _ t => inv F procs procs X t) err := by
      have after := dis.retable procs (s.nextpid + 1) right
      rw [← dis.table right] at after ⊢
      exact after
    refine wp_seq counter fun _ t right => wp_seq (dis.modifyProc right _) fun _ t right => ?_
    have right := dis.restate (p := np) (e := { procs np with pid := s.nextpid }) right rfl rfl id
    refine wp_ite (fun _ => dis.now right) fun _ => wp_seq (dis.modifyProc right _) fun _ t right => ?_
    rw [update_self] at right
    have right := dis.restate (p := np) (e := { procs np with pid := s.nextpid, state := .embryo }) right
      (by rw [update_self]) (by rw [update_self]) nofun
    refine wp_seq (dis.forkFiles (List.nodup_finRange nofile) right (by rw [update_self]; nofun) fun fd _ => ?_)
      fun _ t after => ?_
    · rw [update_self]
      exact free.1 fd
    · obtain ⟨right, busy, cwd⟩ := after
      rw [update_self] at cwd
      refine wp_seq (wp_cwd (fun _ => dis.trap) fun ip here => ?_) fun _ _ next => next
      have shared : wp (idup ip) t (fun r u => r = ip ∧ ∃ i, inv F t.proc t.proc (⟨ip, i, false⟩ ::ₘ X) u) err :=
        ⟨rfl, (dis.names F t.proc).start right here⟩
      refine wp_seq shared fun _ u ⟨same, i, right⟩ => wp_seq (dis.modifyProc right _) fun _ u right => ?_
      subst same
      exact dis.now (dis.giveCwd (p := np) (e := { t.proc np with cwd := some _, state := .runnable })
        right (cwd.trans free.2)
        rfl nofun rfl)

theorem exitFiles (right : inv F procs procs X s) (alive : (procs p).state ≠ .unused) :
    wp (exitFiles p list) s (fun _ t => inv F t.proc t.proc X t ∧ (t.proc p).state ≠ .unused) err := by
  induction list generalizing s procs with
  | nil =>
    rw [← dis.table right] at alive
    exact ⟨dis.now right, alive⟩
  | cons fd rest ih =>
    refine wp_get_seq ?_
    cases here : (s.proc p).ofile fd with
    | none => exact ih right alive
    | some f =>
      rw [dis.table right] at here
      refine wp_seq (dis.fileclose (dis.seize right alive here)) fun _ t right =>
        wp_seq (dis.setOfile right none) fun _ t right => ?_
      exact ih right (by rwa [descr_state])

theorem exit (right : inv F procs procs X s) (alive : (procs p).state ≠ .unused) :
    wp (exit p) s (fun _ t => inv F t.proc t.proc X t) err := by
  have init : err (.panic "init exiting") := (dis.names F procs).other _ (by decide) (by decide)
  refine wp_guard (fun _ => init) fun _ => wp_seq (dis.exitFiles right alive) fun _ t ⟨right, alive⟩ => ?_
  refine wp_seq (wp_cwd (fun _ => dis.trap) fun ip here => ?_) fun _ _ next => next
  refine wp_seq
    (dis.iput (dis.seizeCwd right here rfl nofun rfl (e := { t.proc p with cwd := none, state := .zombie })))
    fun _ u right => ?_
  exact wp_mono (dis.modifyProc right _) (fun _ _ right => dis.now right) fun _ => id

/-- A call keeps the invariant, whether it succeeds or fails. -/
theorem run (call : FsCall) (right : inv F s.proc s.proc X s) (alive : (s.proc p).Alive) (free : call.PageFree s) :
    wp (call.run p) s (fun _ t => inv F t.proc t.proc X t) err := by
  have names := dis.names F s.proc
  have stays : ∀ {α : Type} {m : FsM α}, wp m s (fun _ t => inv F s.proc s.proc X t) err →
      wp m s (fun _ t => inv F t.proc t.proc X t) err :=
    fun kept => wp_mono kept (fun _ _ right => dis.now right) fun _ => id
  cases call with
  | «open» args => exact dis.sysOpen right alive.1
  | dup fd => exact dis.sysDup right alive.1
  | read fd n => exact stays (wp_seq (dis.sysRead right) fun _ _ right => right)
  | write fd src => exact stays (dis.sysWrite right)
  | close fd => exact dis.sysClose right alive.1
  | pipe arg page =>
    refine dis.sysPipe right alive.1 fun q same => ?_
    subst same
    exact free
  | link old new => exact stays (names.sysLink right)
  | unlink path => exact stays (names.sysUnlink right)
  | mkdir path =>
    cases path with
    | none => exact right
    | some path => exact stays (names.sysCreate (by decide) right)
  | mknod args =>
    cases args with
    | none => exact right
    | some args => exact stays (names.sysCreate (by decide) right)
  | chdir path => exact dis.sysChdir right alive.1
  | exec path kvm room stack => exact stays (names.exec right)
  | fork memory => exact dis.fork right
  | exit => exact wp_seq (dis.exit right alive.1) fun _ _ right => right

end

end FileDiscipline

end MiniOS
