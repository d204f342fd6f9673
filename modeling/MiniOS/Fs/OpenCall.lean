import MiniOS.Fs.CreateCall
import MiniOS.Fs.Counts

namespace MiniOS

open Lib Function

namespace View

variable {v : View} {f : Fin nfile} {p : Fin nproc} {j : Nat}
  {i : Nat} {v' : View} {path : Bytes} {type major minor : BitVec 16} {r : Option Nat} {omode : BitVec 32}

theorem uses_setFile (v : View) (f : Fin nfile) (e : Opened) (j : Nat) :
    (v.setFile f e).uses j + (if (v.file f).target = some j then 1 else 0) =
    v.uses j + (if e.target = some j then 1 else 0) := by
  have moved : (fun g => ((v.setFile f e).file g).target) =
      Function.update (fun g => (v.file g).target) f e.target := by
    funext g
    by_cases here : g = f
    · simp only [setFile, here, update_self]
    · simp only [setFile, update_of_ne here]
  have count := countAt_update (fun g => (v.file g).target) f e.target j
  have procs : (v.setFile f e).proc = v.proc := rfl
  rw [uses, moved, procs, uses]
  omega

theorem uses_setProc (v : View) (p : Fin nproc) (e : ProcView) (j : Nat) :
    (v.setProc p e).uses j + (if (v.proc p).cwd = some j then 1 else 0) =
    v.uses j + (if e.cwd = some j then 1 else 0) := by
  have moved : (fun q => ((v.setProc p e).proc q).cwd) = Function.update (fun q => (v.proc q).cwd) p e.cwd := by
    funext q
    by_cases here : q = p
    · simp only [setProc, here, update_self]
    · simp only [setProc, update_of_ne here]
  have count := countAt_update (fun q => (v.proc q).cwd) p e.cwd j
  have files : (v.setProc p e).file = v.file := rfl
  rw [uses, moved, files, uses]
  omega

/-- The files without references have no type. -/
def Tidy (v : View) : Prop := ∀ f, (v.file f).ref = 0 → (v.file f).type = .none

theorem target_of_free (free : (v.file f).ref = 0) : (v.file f).target = none :=
  if_neg fun here => absurd here.1 (by omega)

theorem setFile_self (v : View) (f : Fin nfile) (e : Opened) : (v.setFile f e).file f = e := update_self ..

theorem drop_tables (v : View) (i : Nat) : (v.drop i).file = v.file ∧ (v.drop i).proc = v.proc := by
  rw [drop]
  split <;> exact ⟨rfl, rfl⟩

theorem locked_ok {α : Type} {g : Node → Except Stop α} {a : α} (ans : v.locked i g = .ok a) :
    ∃ n, v.node i = some n ∧ g n = .ok a := by
  rw [locked] at ans
  split at ans
  · cases ans
  · exact ⟨_, by assumption, ans⟩

theorem addEntry_ok {d : Nat} {m : Node} {name : Bytes} (ans : v.addEntry d m name i = .ok v') :
    freeOff m.data + 16 ≤ 140 * 512 ∧ v' = v.setNode d (some (m.link name i)) := by
  rw [addEntry] at ans
  split at ans
  · cases ans
  · cases ans
    exact ⟨by omega, rfl⟩

/-- What `create` returns: nothing, a regular file that is there, or a new inode. -/
theorem create_ok (ans : v.create p path type major minor = .ok (r, v')) :
    (v' = v ∧ (∀ i, r = some i → type = tFile ∧ ∃ n, v.node i = some n ∧ n.type = tFile) ∧
      ∀ d m name, v.namex p path true = .ok (some (d, name)) → v.node d = some m → lookup m.data name ≠ none) ∨
      ∃ i d m name, r = some i ∧ v.namex p path true = .ok (some (d, name)) ∧ v.node d = some m ∧
      lookup m.data name = none ∧
        v.freeInode = some i ∧ freeOff m.data + 16 ≤ 140 * 512 ∧
        v' = ((v.setNode i (some (newNode i d type major minor))).setNode d
          (some ({ m with nlink := if type = tDir then m.nlink + 1 else m.nlink }.link name i))).drop d := by
  rw [create] at ans
  split at ans
  · cases ans
  · rename_i none
    cases ans
    refine .inl ⟨rfl, fun _ wrong => (by cases wrong), fun d m name walked => ?_⟩
    cases none.symm.trans walked
  · rename_i d name walked
    obtain ⟨m, there, ans⟩ := locked_ok ans
    split at ans
    · rename_i known
      obtain ⟨n, theirs, ans⟩ := locked_ok ans
      cases ans
      refine .inl ⟨rfl, fun i found => ?_, fun d' m' name' walked' there' absent => ?_⟩
      · split at found
        · rename_i both
          cases found
          exact ⟨both.1, n, theirs, both.2⟩
        · cases found
      · cases walked.symm.trans walked'
        cases there.symm.trans there'
        cases known.symm.trans absent
    · rename_i absent
      split at ans
      · cases ans
      · rename_i i free
        dsimp only at ans
        split at ans
        · cases ans
        · rename_i w added
          cases ans
          obtain ⟨small, rfl⟩ := addEntry_ok added
          exact .inr ⟨i, d, m, name, rfl, walked, there, absent, free, small, rfl⟩

theorem create_tables (ans : v.create p path type major minor = .ok (r, v')) :
    v'.file = v.file ∧ v'.proc = v.proc := by
  rcases create_ok ans with ⟨rfl, -⟩ | ⟨i, d, m, name, -, -, -, -, -, -, rfl⟩
  · exact ⟨rfl, rfl⟩
  · exact drop_tables ..

theorem sysCreate_ok {r : Int}
    (ans : v.sysCreate p path type major minor = .ok (r, v')) :
    ∃ o, v.create p path type major minor = .ok (o, v') ∧ (r = -1 → o = none) := by
  rw [sysCreate] at ans
  split at ans
  · cases ans
  · cases ans
    exact ⟨none, by assumption, fun _ => rfl⟩
  · cases ans
    exact ⟨_, by assumption, fun wrong => absurd wrong (by decide)⟩

theorem openInode_ok (ans : v.openInode p path omode = .ok (r, v')) :
    omode &&& oCreate ≠ 0 ∧ v.create p path tFile 0 0 = .ok (r, v') ∨ omode &&& oCreate = 0 ∧ v' = v := by
  rw [openInode] at ans
  split at ans
  · exact .inl ⟨by assumption, ans⟩
  · refine .inr ⟨not_not.1 (by assumption), ?_⟩
    split at ans
    · cases ans
    · cases ans
      rfl
    · obtain ⟨n, -, ans⟩ := locked_ok ans
      cases ans
      rfl

theorem openInode_tables (ans : v.openInode p path omode = .ok (r, v')) :
    v'.file = v.file ∧ v'.proc = v.proc := by
  obtain ⟨-, made⟩ | ⟨-, rfl⟩ := openInode_ok ans
  · exact create_tables made
  · exact ⟨rfl, rfl⟩

section Install

variable {ofile : Fin nofile → Option (Fin nfile)} {e : Opened}

/-- Process `p` has opened the file `f`. -/
def install (v : View) (p : Fin nproc) (ofile : Fin nofile → Option (Fin nfile)) (f : Fin nfile) (e : Opened) :
    View :=
  (v.setProc p { v.proc p with ofile := ofile }).setFile f e

theorem sysOpen_ok {path : Bytes} {omode : BitVec 32} {r : Int} {v' : View}
    (ans : v.sysOpen p path omode = .ok (r, v')) :
    ∃ o w, v.openInode p path omode = .ok (o, w) ∧
      (v' = w ∨ 0 ≤ r ∧ ∃ ofile f e, (w.file f).ref = 0 ∧ 0 < e.ref ∧ v' = w.install p ofile f e) := by
  rw [sysOpen] at ans
  split at ans
  · cases ans
  · cases ans
    exact ⟨_, _, by assumption, .inl rfl⟩
  · refine ⟨_, _, by assumption, ?_⟩
    split at ans
    · rename_i i w _ _ _ f fd free _
      cases ans
      have zero := List.find?_some (p := fun f => decide ((w.file f).ref = 0)) free
      exact .inr ⟨Int.natCast_nonneg _, _, f, _, of_decide_eq_true zero, Nat.one_pos, rfl⟩
    · cases ans
      exact .inl rfl

theorem install_tidy (tidy : v.Tidy) (opened : 0 < e.ref) : (v.install p ofile f e).Tidy := by
  intro g free
  by_cases here : g = f
  · subst here
    rw [install, setFile_self] at free
    exact absurd free opened.ne'
  · simp only [install, setFile, update_of_ne here] at free ⊢
    exact tidy g free

theorem install_proc (v : View) (p q : Fin nproc) (f : Fin nfile) :
    ((v.install p ofile f e).proc q).state = (v.proc q).state ∧
    ((v.install p ofile f e).proc q).cwd = (v.proc q).cwd := by
  by_cases here : q = p
  · subst here
    simp only [install, setFile, setProc, update_self, and_self]
  · simp only [install, setFile, setProc, update_of_ne here, and_self]

end Install

end View

namespace Good

variable {v : View} {X Y : Multiset Handle} {L : Finset Nat} {s : Fs} {k : Fin ninode} {i : Nat} {b : Bool}
  {f : Fin nfile} {p : Fin nproc} {e : File} {err : Stop → Prop} {path : Bytes} {omode : BitVec 32} {c : Nat}
  {α : Type} {post : α → Fs → Prop}

/-- References move between the running call and a file. -/
theorem setFile (good : Good v X L s)
    (balance : ∀ j, (v.setFile f (e.opened i)).uses j + (Y.map Handle.inum).count j =
      v.uses j + (X.map Handle.inum).count j) (handle : ∀ h ∈ Y, s.Caches h.ip h.inum ∧
      (h.loaded = true → (s.icache h.ip).valid = true))
    (target : (e.opened i).target = some i → s.Caches e.ip i ∧ (s.icache e.ip).valid = true ∧ (v.node i).isSome) :
    Good (v.setFile f (e.opened i)) Y L (s.setFile f e) := by
  have fewer : ∀ {j}, 0 < (v.setFile f (e.opened i)).uses j → 0 < v.uses j ∨ (e.opened i).target = some i ∧
      j = i := by
    intro j some
    have moved := v.uses_setFile f (e.opened i) j
    by_cases here : (e.opened i).target = Option.some j
    · refine .inr ?_
      rw [Opened.target] at here ⊢
      split at here
      · rename_i opened
        rw [if_pos opened]
        exact ⟨rfl, (Option.some.inj here).symm⟩
      · cases here
    · rw [if_neg here] at moved
      exact .inl (by omega)
  refine ⟨good.disk, good.ninodes, fun l => ?_, good.unique, handle, good.held, fun j some => ?_, fun g => ?_,
    fun g j here => ?_, good.pipe,
    good.proc, good.cwd, good.nextpid⟩
  · have entry := good.entry l
    refine ⟨entry.number, fun some => ?_, entry.cached, fun some used dead => ?_, entry.locked⟩
    · rw [balance]
      exact entry.count some
    · rcases fewer used with used | ⟨opened, same⟩
      · exact entry.live some used dead
      · obtain ⟨caches, valid, -⟩ := target opened
        rw [good.unique ⟨some, same⟩ caches]
        exact valid
  · rcases fewer some with some | ⟨opened, rfl⟩
    · exact good.used j some
    · exact (target opened).2.2
  · by_cases here : g = f
    · simp only [View.setFile, Fs.setFile, here, update_self]
      rfl
    · simp only [View.setFile, Fs.setFile, update_of_ne here]
      exact good.file g
  · by_cases same : g = f
    · subst same
      simp only [View.setFile, update_self] at here
      simp only [Fs.setFile, update_self]
      have number : j = i := by
        rw [Opened.target] at here
        split at here
        · exact (Option.some.inj here).symm
        · cases here
      subst number
      exact (target here).1
    · simp only [View.setFile, update_of_ne same] at here
      simp only [Fs.setFile, update_of_ne same]
      exact good.target g j here

/-- References move between the running call and the current directory of a process. -/
theorem setProc {now : ProcView} {entry : ProcFiles} (good : Good v X L s)
    (balance : ∀ j, (v.setProc p now).uses j + (Y.map Handle.inum).count j = v.uses j + (X.map Handle.inum).count j)
    (handle : ∀ h ∈ Y, s.Caches h.ip h.inum ∧ (h.loaded = true → (s.icache h.ip).valid = true))
    (same : now.state = entry.state ∧ now.pid = entry.pid ∧ now.ofile = entry.ofile)
    (place : ∀ i, now.cwd = some i → ∃ k, entry.cwd = some k ∧ s.Caches k i ∧
      ((v.proc p).cwd = some i ∨ (s.icache k).valid = true)) :
    Good (v.setProc p now) Y L { s with proc := Function.update s.proc p entry } := by
  have fewer : ∀ {j}, 0 < (v.setProc p now).uses j → 0 < v.uses j ∨ ∃ k, s.Caches k j ∧
      (s.icache k).valid = true := by
    intro j used
    by_cases here : now.cwd = some j
    · obtain ⟨k, -, caches, old | valid⟩ := place j here
      · exact .inl (View.uses_of_cwd old)
      · exact .inr ⟨k, caches, valid⟩
    · have moved := v.uses_setProc p now j
      rw [if_neg here] at moved
      exact .inl (by omega)
  refine ⟨good.disk, good.ninodes, fun l => ?_, good.unique, handle, good.held, fun j used => ?_, good.file,
    good.target, good.pipe,
    fun q => ?_, fun q j here => ?_, good.nextpid⟩
  · have fits := good.entry l
    refine ⟨fits.number, fun busy => ?_, fits.cached, fun busy used dead => ?_, fits.locked⟩
    · rw [balance]
      exact fits.count busy
    · obtain used | ⟨k, caches, valid⟩ := fewer used
      · exact fits.live busy used dead
      · rwa [good.unique ⟨busy, rfl⟩ caches]
  · obtain used | ⟨k, caches, valid⟩ := fewer used
    · exact good.used j used
    · exact Option.isSome_iff_exists.2 ⟨_, (good.valid_node caches valid).1⟩
  · by_cases mine : q = p
    · subst mine
      simp only [View.setProc, update_self]
      exact same
    · simp only [View.setProc, update_of_ne mine]
      exact good.proc q
  · by_cases mine : q = p
    · subst mine
      simp only [View.setProc, update_self] at here ⊢
      obtain ⟨k, entry, caches, -⟩ := place j here
      exact ⟨k, entry, caches⟩
    · simp only [View.setProc, update_of_ne mine] at here ⊢
      exact good.cwd q j here

/-- A descriptor changes. -/
theorem setOfile (good : Good v X L s) (ofile : Fin nofile → Option (Fin nfile)) :
    Good (v.setProc p { v.proc p with ofile := ofile }) X L
      { s with proc := Function.update s.proc p { s.proc p with ofile := ofile } } := by
  refine good.setProc (fun j => ?_) good.handle ⟨(good.proc p).1, (good.proc p).2.1, rfl⟩ fun i here => ?_
  · rw [Nat.add_right_cancel (v.uses_setProc p { v.proc p with ofile := ofile } j)]
  · obtain ⟨k, there, caches⟩ := good.cwd p i here
    exact ⟨k, there, caches, .inl here⟩

/-- The call gives its reference to a file. -/
theorem openFile (good : Good v (⟨k, i, true⟩ ::ₘ X) L s) (closed : (v.file f).target = none) (some : 0 < e.ref)
    (inode : e.type = .inode) (ip : e.ip = k) : Good (v.setFile f (e.opened i)) X L (s.setFile f e) := by
  obtain ⟨caches, loaded⟩ := good.handle _ (Multiset.mem_cons_self ..)
  have valid := loaded rfl
  refine good.setFile (fun j => ?_) (fun h mem => good.handle h (Multiset.mem_cons_of_mem mem)) fun _ => ?_
  · have moved := v.uses_setFile f (e.opened i) j
    have target : (e.opened i).target = Option.some i := if_pos ⟨some, inode⟩
    rw [closed, target, if_neg nofun, Nat.add_zero] at moved
    rw [moved, Multiset.map_cons, Multiset.count_cons]
    by_cases here : j = i
    · rw [if_pos (congrArg Option.some here.symm), if_pos here]
      omega
    · rw [if_neg fun same => here (Option.some.inj same).symm, if_neg here, Nat.add_zero, Nat.add_zero]
  · rw [ip]
    exact ⟨caches, valid, Option.isSome_iff_exists.2 ⟨_, (good.valid_node caches valid).1⟩⟩

theorem freeFile_eq (good : Good v X L s) :
    ((List.finRange nfile).find? fun f => (s.ftable f).ref = 0) = v.freeFile := by
  rw [View.freeFile]
  congr 1
  funext f
  rw [good.file f]
  rfl

theorem freeFd_eq (good : Good v X L s) (p : Fin nproc) :
    ((List.finRange nofile).find? fun fd => (s.proc p).ofile fd = none) = v.freeFd p := by
  rw [View.freeFd, (good.proc p).2.2]

theorem file_eq (good : Good v X L s) (f : Fin nfile) : (v.file f).ref = (s.ftable f).ref ∧
    (v.file f).type = (s.ftable f).type ∧ (v.file f).pipe = (s.ftable f).pipe := by
  rw [good.file f]
  exact ⟨rfl, rfl, rfl⟩

theorem openInode (good : Good v 0 ∅ s) (walkable : v.Walkable 0) (here : (v.proc p).cwd = some c) :
    wp (openInode p path omode) s (Created (v.openInode p path omode)) (Stops v (v.openInode p path omode)) := by
  rw [View.openInode]
  refine wp_ite (fun creates => ?_) fun opens => ?_
  · rw [if_pos creates]
    exact good.create walkable here (by decide)
  · rw [if_neg opens]
    refine good.namei_seq walkable here (fun e stopped => .inl ?_) (fun full => .inr (View.lacks_iget full (by simp)))
      (fun t none good => ⟨v, ?_, good⟩) fun t i l b name walked kept good => ?_
    · rw [stopped]
    · rw [none]
    · rw [walked]
      simp only
      refine good.ilock_seq (Finset.notMem_empty i) (fun gone => .inl (View.locked_none gone)) fun t n there good =>
        wp_inode l ?_
      rw [good.type_eq (Multiset.mem_cons_self ..) there, View.locked_some there]
      refine wp_ite (fun dir => ?_) fun other => ?_
      · exact wp_seq (good.iunlockput_kept (Finset.notMem_empty i) kept) fun _ t good => ⟨v, by rw [if_pos dir], good⟩
      · exact ⟨i, v, by rw [if_neg other], kept, good⟩

theorem filealloc {g : Option (Fin nfile) → FsM α} (good : Good v X L s)
    (full : v.freeFile = none → wp (g none) s post err)
    (found : ∀ f, v.freeFile = some f → (s.ftable f).ref = 0 →
      wp (g (some f)) (s.setFile f { s.ftable f with ref := 1 }) post err) :
    wp (filealloc >>= g) s post err := by
  have same := good.freeFile_eq
  have first : wp MiniOS.filealloc s (fun r t => r = v.freeFile ∧
      (r = none ∧ t = s ∨ ∃ f, r = some f ∧ (s.ftable f).ref = 0 ∧
        t = s.setFile f { s.ftable f with ref := 1 })) err := by
    refine wp_get_seq ?_
    rw [same]
    split
    · rename_i free
      exact ⟨free.symm, .inl ⟨rfl, rfl⟩⟩
    · rename_i f free
      have zero := List.find?_some (same.trans free)
      simp only [decide_eq_true_eq] at zero
      exact ⟨free.symm, .inr ⟨f, rfl, zero, rfl⟩⟩
  refine wp_seq first fun r t after => ?_
  obtain ⟨free, ⟨rfl, rfl⟩ | ⟨f, rfl, zero, rfl⟩⟩ := after
  · exact full free.symm
  · exact found f free.symm zero

theorem fdalloc {g : Option (Fin nofile) → FsM α} (good : Good v X L s)
    (full : v.freeFd p = none → wp (g none) s post err)
    (found : ∀ fd, v.freeFd p = some fd → wp (g (some fd)) { s with proc := descr s.proc p fd (some f) } post err) :
    wp (fdalloc p f >>= g) s post err := by
  have same := good.freeFd_eq p
  have first : wp (MiniOS.fdalloc p f) s (fun r t => r = v.freeFd p ∧
      (r = none ∧ t = s ∨ ∃ fd, r = some fd ∧ t = { s with proc := descr s.proc p fd (some f) })) err := by
    refine wp_get_seq ?_
    rw [same]
    split
    · rename_i free
      exact ⟨free.symm, .inl ⟨rfl, rfl⟩⟩
    · rename_i fd free
      exact ⟨free.symm, .inr ⟨fd, rfl, rfl⟩⟩
  refine wp_seq first fun r t after => ?_
  obtain ⟨free, ⟨rfl, rfl⟩ | ⟨fd, rfl, rfl⟩⟩ := after
  · exact full free.symm
  · exact found fd free.symm

/-- A free file is taken by `filealloc`. -/
theorem takeFile (good : Good v X L s) (tidy : v.Tidy) (free : (s.ftable f).ref = 0) : (s.ftable f).type = .none ∧
    Good (v.setFile f ({ s.ftable f with ref := 1 }.opened (v.file f).inum)) X L
    (s.setFile f { s.ftable f with ref := 1 }) := by
  obtain ⟨ref, type, -⟩ := good.file_eq f
  have bare : (s.ftable f).type = .none := type ▸ tidy f (ref.trans free)
  have closed : ({ s.ftable f with ref := 1 }.opened (v.file f).inum).target = none := by
    refine if_neg fun here => ?_
    have inode : (s.ftable f).type = .inode := here.2
    cases bare.symm.trans inode
  refine ⟨bare, good.setFile (fun j => ?_) good.handle fun opened => ?_⟩
  · have moved := v.uses_setFile f ({ s.ftable f with ref := 1 }.opened (v.file f).inum) j
    rw [closed, View.target_of_free (ref.trans free)] at moved
    omega
  · cases closed.symm.trans opened

/-- `fileclose` of a file with one reference that was not opened. -/
theorem fileclose_bare {t : Fs} (entry : t.ftable f = e) (bare : e.type = .none) (one : e.ref = 1) :
    wp (fileclose f) t (fun _ u => u = t.setFile f { e with ref := 0, type := .none }) err := by
  refine wp_file f (wp_guard (fun few => absurd few ?_) fun _ => ?_)
  · rw [entry, one]
    decide
  · rw [entry, one, bare, if_neg (by decide)]
    refine wp_modify_seq ?_
    rw [entry]
    exact rfl

/-- `fileclose` of the file that `filealloc` has taken. -/
theorem fileclose_taken (good : Good v X L s) (bare : (s.ftable f).type = .none) (free : (s.ftable f).ref = 0) :
    wp (fileclose f) (s.setFile f { s.ftable f with ref := 1 }) (fun _ t => Good v X L t) err := by
  refine wp_mono (fileclose_bare (update_self ..) bare rfl) ?_ fun _ => id
  rintro _ t rfl
  have same : ({ s.ftable f with ref := 0, type := .none } : File) = s.ftable f := by rw [← bare, ← free]
  have back : (s.setFile f { s.ftable f with ref := 1 }).setFile f
      { s.ftable f with ref := 0, type := .none } = s := by
    rw [same]
    simp only [Fs.setFile, update_idem, update_eq_self]
  exact back.symm ▸ good

/-- The end of `sys_open`. -/
theorem openTaken (rights : Bool × Bool) {fd : Int} (good : Good v {⟨k, i, true⟩} (insert i ∅) s)
    (one : (v.file f).ref = 1) (bare : (v.file f).type = .none) :
    wp (do MiniOS.iunlock k
           modifyFile f fun e =>
           { e with type := .inode, ip := k, off := 0, readable := rights.1, writable := rights.2 }
           pure fd) s
      (fun r t => r = fd ∧ Good (v.setFile f ⟨.inode, 1, rights.1, rights.2, (v.file f).pipe, i, 0⟩) 0 ∅ t) err := by
  refine wp_seq (good.iunlock_own (Finset.notMem_empty i)) fun _ t good => wp_modify_seq ⟨rfl, ?_⟩
  obtain ⟨ref, -, pipe⟩ := good.file_eq f
  have closed : (v.file f).target = none := if_neg fun here => by
    cases bare.symm.trans here.2
  have opened :=
    good.openFile
    (e := { t.ftable f with type := .inode, ip := k, off := 0, readable := rights.1, writable := rights.2 })
    closed (by rw [← ref, one]; decide) rfl rfl
  have shape : ({ t.ftable f with type := .inode, ip := k, off := 0, readable := rights.1, writable := rights.2 } :
    File).opened i =
      ⟨.inode, 1, rights.1, rights.2, (v.file f).pipe, i, 0⟩ := by
    rw [File.opened, pipe, ← one, ref]
  rw [shape] at opened
  exact opened

theorem sysOpen (good : Good v 0 ∅ s) (walkable : v.Walkable 0) (tidy : v.Tidy)
    (here : (v.proc p).cwd = some c) :
    wp (sysOpen p (some (path, omode))) s (Ends (v.sysOpen p path omode)) (Stops v (v.sysOpen p path omode)) := by
  refine wp_seq (wp_mono (good.openInode walkable here) (fun _ _ => id) fun e stopped =>
    stopped.imp (fun stopped => ?_) id) fun r t after => ?_
  · rw [View.sysOpen, stopped]
  · match r, after with
    | none, ⟨v', ans, good⟩ => exact ⟨v', by rw [View.sysOpen, ans], good⟩
    | some l, ⟨i, v', ans, kept, good⟩ =>
      rw [View.sysOpen, ans]
      simp only
      have tidy : v'.Tidy := by
        rw [View.Tidy, (View.openInode_tables ans).1]
        exact tidy
      refine good.filealloc (fun full => ?_) fun f free zero => ?_
      · simp only [full]
        exact wp_seq (good.iunlockput_kept (Finset.notMem_empty i) kept) fun _ t good => ⟨v', rfl, good⟩
      · obtain ⟨bare, good'⟩ := good.takeFile tidy zero
        refine good'.fdalloc (fun full => ?_) fun fd found => ?_
        · have full : v'.freeFd p = none := full
          simp only [free, full]
          refine wp_seq (good.fileclose_taken bare zero) fun _ t good => ?_
          exact wp_seq (good.iunlockput_kept (Finset.notMem_empty i) kept) fun _ t good => ⟨v', rfl, good⟩
        · have found : v'.freeFd p = some fd := found
          simp only [free, found]
          have descriptors := (good.proc p).2.2
          obtain ⟨-, -, pipe⟩ := good.file_eq f
          have good := good'.setOfile (p := p) (Function.update (t.proc p).ofile fd (some f))
          have entry := View.setFile_self v' f ({ t.ftable f with ref := 1 }.opened (v'.file f).inum)
          refine wp_mono (good.openTaken (decide (omode &&& oWronly = 0), decide (omode &&& oWronly ≠ 0 ∨
            omode &&& oRdwr ≠ 0))
            ((congrArg Opened.ref entry).trans rfl) ((congrArg Opened.type entry).trans bare)) ?_ fun _ => id
          rintro _ u ⟨rfl, good⟩
          refine ⟨_, ?_, good⟩
          rw [← descriptors, pipe]
          simp only [View.setFile, View.setProc, update_idem, update_self, File.opened]

end Good

end MiniOS
