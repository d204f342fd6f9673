import MiniOS.Fs.Held

namespace MiniOS

open Lib Function

variable {e : File}

section Counts

variable {procs : Fin nproc → ProcFiles} {p : Fin nproc}

theorem fds_setOfile (fd : Fin nofile) (f : Option (Fin nfile)) :
    fds (update procs p { procs p with ofile := update (procs p).ofile fd f }) =
      update (fds procs) (p, fd) f := by
  funext x
  obtain ⟨q, fd'⟩ := x
  by_cases here : q = p
  · subst here
    by_cases there : fd' = fd
    · subst there
      simp only [fds, update_self]
    · rw [update_of_ne fun same => there (Prod.ext_iff.1 same).2]
      simp only [fds, update_self, update_of_ne there]
  · rw [update_of_ne fun same => here (Prod.ext_iff.1 same).1]
    simp only [fds, update_of_ne here]

theorem fds_update {e : ProcFiles} (same : e.ofile = (procs p).ofile) : fds (update procs p e) = fds procs := by
  funext x
  by_cases here : x.1 = p
  · simp only [fds, here, update_self, same]
  · simp only [fds, update_of_ne here]

theorem cwds_update (e : ProcFiles) : cwds (update procs p e) = update (cwds procs) p e.cwd := by
  funext q
  by_cases here : q = p
  · subst here
    simp only [cwds, update_self]
  · simp only [cwds, update_of_ne here]

end Counts

theorem File.inode?_of_ne (other : e.type ≠ .inode) : e.inode? = none := if_neg fun opened => other opened.2

namespace Held

variable {X Y : Multiset Handle} {F G : Multiset (Fin nfile)} {procs : Fin nproc → ProcFiles} {T : Tables}
  {f : Fin nfile} {e : File} {p : Fin nproc}

section

variable (held : Held X F procs T)
include held

/-- The counts do not depend on the pipes and on the process table. -/
theorem frame (pipe : Nat → Option Pipe) (table : Fin nproc → ProcFiles) :
    Held X F procs ⟨T.entry, T.ftable, pipe, table⟩ :=
  ⟨held.files, held.inodes, held.numbers, held.unique, held.closed, held.unused⟩

/-- An entry of the file table changes together with the references to it and
from it. -/
theorem setFile
    (count : e.ref + F.count f = (T.ftable f).ref + G.count f) (others : ∀ g, g ≠ f → G.count g = F.count g)
    (closed : e.ref = 0 → e.type = .none)
    (inodes : ∀ k, (if e.inode? = some k then 1 else 0) + (Y.map Handle.ip).count k =
      (if (T.ftable f).inode? = some k then 1 else 0) + (X.map Handle.ip).count k)
    (numbers : ∀ h ∈ Y, (T.entry h.ip).inum = h.inum) :
    Held Y G procs { T with ftable := update T.ftable f e } := by
  refine ⟨fun g => ?_, fun k => ?_, numbers, held.unique, fun g free => ?_, held.unused⟩
  · have before := held.files g
    by_cases here : g = f
    · subst here
      simp only [update_self]
      omega
    · simp only [update_of_ne here]
      rw [before, others g here]
  · have before := held.inodes k
    have opened : (fun g => (update T.ftable f e g).inode?) =
        update (fun g => (T.ftable g).inode?) f e.inode? := by
      funext g
      by_cases here : g = f
      · subst here
        simp only [update_self]
      · simp only [update_of_ne here]
    have changed := countAt_update (fun g => (T.ftable g).inode?) f e.inode? k
    have balance := inodes k
    simp only [opened]
    omega
  · by_cases here : g = f
    · subst here
      simp only [update_self] at free ⊢
      exact closed free
    · simp only [update_of_ne here] at free ⊢
      exact held.closed g free

/-- A file becomes the end of a pipe. -/
theorem setEnd (free : (T.ftable f).type = .none)
    (busy : 0 < (T.ftable f).ref) (ref : e.ref = (T.ftable f).ref) (type : e.type = .pipe) :
    Held X F procs { T with ftable := update T.ftable f e } := by
  refine held.setFile (by rw [ref]) (fun _ _ => rfl) (fun shut => absurd shut (by omega)) (fun k => ?_) held.numbers
  rw [File.inode?_of_ne (by rw [type]; nofun), File.inode?_of_ne (by rw [free]; nofun)]

/-- A descriptor changes together with the references to files that the call holds. -/
theorem setOfile {fd : Fin nofile} {new : Option (Fin nfile)}
    (alive : (procs p).state ≠ .unused)
    (balance : ∀ f, (if new = some f then 1 else 0) + G.count f =
      (if (procs p).ofile fd = some f then 1 else 0) + F.count f) :
    Held X G (update procs p { procs p with ofile := update (procs p).ofile fd new }) T := by
  refine ⟨fun f => ?_, fun k => ?_, held.numbers, held.unique, held.closed, fun q idle => ?_⟩
  · have before := held.files f
    have changed : countAt (update (fds procs) (p, fd) new) f + (if (procs p).ofile fd = some f then 1 else 0) =
        countAt (fds procs) f + (if new = some f then 1 else 0) := countAt_update (fds procs) (p, fd) new f
    have equal := balance f
    rw [fds_setOfile]
    omega
  · rw [held.inodes k, cwds_update]
    exact congrArg (fun g => _ + countAt g k + _) (update_eq_self p (cwds procs)).symm
  · by_cases here : q = p
    · subst here
      rw [update_self] at idle
      exact absurd idle alive
    · rw [update_of_ne here] at idle ⊢
      exact held.unused q idle

/-- The current directory of a process changes together with the references to
inodes that the call holds. -/
theorem setCwd {e : ProcFiles} (ofile : e.ofile = (procs p).ofile)
    (idle : e.state = .unused → (∀ fd, (procs p).ofile fd = none) ∧ e.cwd = none)
    (balance : ∀ k, (if e.cwd = some k then 1 else 0) + (Y.map Handle.ip).count k =
      (if (procs p).cwd = some k then 1 else 0) + (X.map Handle.ip).count k)
    (numbers : ∀ h ∈ Y, (T.entry h.ip).inum = h.inum) : Held Y F (update procs p e) T := by
  refine ⟨fun f => ?_, fun k => ?_, numbers, held.unique, held.closed, fun q free => ?_⟩
  · rw [held.files f, fds_update ofile]
  · have before := held.inodes k
    have changed : countAt (update (cwds procs) p e.cwd) k + (if (procs p).cwd = some k then 1 else 0) =
        countAt (cwds procs) k + (if e.cwd = some k then 1 else 0) := countAt_update (cwds procs) p e.cwd k
    have equal := balance k
    rw [cwds_update]
    omega
  · by_cases here : q = p
    · subst here
      rw [update_self] at free ⊢
      rw [ofile]
      exact idle free
    · rw [update_of_ne here] at free ⊢
      exact held.unused q free

end

end Held

theorem File.IsEnd.iff {page page' : Nat} {w w' : Bool} (is : e.IsEnd page w) :
    e.IsEnd page' w' ↔ page' = page ∧ w' = w := by
  obtain ⟨busy, type, place, side⟩ := is
  constructor
  · rintro ⟨_, _, place', side'⟩
    exact ⟨place'.symm.trans place, side'.symm.trans side⟩
  · rintro ⟨rfl, rfl⟩
    exact ⟨busy, type, place, side⟩

theorem File.not_isEnd (free : e.type ≠ .pipe) (page : Nat) (w : Bool) : ¬e.IsEnd page w := fun is => free is.2.1

namespace Piped

variable {ftable : Fin nfile → File} {pipe : Nat → Option Pipe} {f : Fin nfile} {e : Pipe} {page : Nat} {a : File}

theorem update_same (piped : Piped ftable pipe) {e : File}
    (same : ∀ page writes, e.IsEnd page writes ↔ (ftable f).IsEnd page writes) : Piped (update ftable f e) pipe := by
  have ends : ∀ g page writes, (update ftable f e g).IsEnd page writes ↔ (ftable g).IsEnd page writes := by
    intro g page writes
    by_cases here : g = f
    · subst here
      rw [update_self]
      exact same page writes
    · rw [update_of_ne here]
  refine ⟨?_, ?_, ?_, piped.used, ?_⟩
  · simpa only [ends] using piped.gone
  · simpa only [ends] using piped.reads
  · simpa only [ends] using piped.writes
  · simpa only [ends] using piped.single

/-- `pipealloc` makes two files the ends of a new pipe. -/
theorem opens (piped : Piped ftable pipe) (fresh : pipe page = none) {g : Fin nfile} (apart : f ≠ g)
    {b : File} (read : a.IsEnd page false) (write : b.IsEnd page true) (freeF : (ftable f).type = .none)
    (freeG : (ftable g).type = .none) (reads : e.readopen = true) (writes : e.writeopen = true) :
    Piped (update (update ftable f a) g b) (update pipe page (some e)) := by
  have ends : ∀ h page' w, (update (update ftable f a) g b h).IsEnd page' w ↔
      (page' = page ∧ ((h = f ∧ w = false) ∨ (h = g ∧ w = true))) ∨ (ftable h).IsEnd page' w := by
    intro h page' w
    by_cases hereG : h = g
    · subst hereG
      have no := File.not_isEnd (by rw [freeG]; nofun : (ftable h).type ≠ .pipe) page' w
      rw [update_self, write.iff]
      simp [no, apart.symm]
    · rw [update_of_ne hereG]
      by_cases hereF : h = f
      · subst hereF
        have no := File.not_isEnd (by rw [freeF]; nofun : (ftable h).type ≠ .pipe) page' w
        rw [update_self, read.iff]
        simp [no, apart]
      · rw [update_of_ne hereF]
        simp [hereF, hereG]
  have none := piped.gone page fresh
  refine ⟨fun page' gone h w => ?_, fun page' e' here => ?_, fun page' e' here => ?_, fun page' e' here => ?_,
    fun page' w h h' left right => ?_⟩
  · have other : page' ≠ page := by
      rintro rfl
      rw [update_self] at gone
      cases gone
    rw [update_of_ne other] at gone
    rw [ends]
    rintro (⟨same, _⟩ | is)
    · exact other same
    · exact piped.gone page' gone h w is
  · by_cases same : page' = page
    · subst same
      rw [update_self] at here
      cases here
      exact ⟨fun _ => ⟨f, (ends ..).2 (.inl ⟨rfl, .inl ⟨rfl, rfl⟩⟩)⟩, fun _ => reads⟩
    · rw [update_of_ne same] at here
      simp only [ends, same, false_and, false_or]
      exact piped.reads page' e' here
  · by_cases same : page' = page
    · subst same
      rw [update_self] at here
      cases here
      exact ⟨fun _ => ⟨g, (ends ..).2 (.inl ⟨rfl, .inr ⟨rfl, rfl⟩⟩)⟩, fun _ => writes⟩
    · rw [update_of_ne same] at here
      simp only [ends, same, false_and, false_or]
      exact piped.writes page' e' here
  · by_cases same : page' = page
    · subst same
      rw [update_self] at here
      cases here
      exact .inl reads
    · rw [update_of_ne same] at here
      exact piped.used page' e' here
  · rw [ends] at left right
    rcases left with ⟨same, left⟩ | left
    · subst same
      rcases right with ⟨_, right⟩ | right
      · rcases left with ⟨rfl, rfl⟩ | ⟨rfl, rfl⟩
        · rcases right with ⟨rfl, _⟩ | ⟨_, side⟩
          · rfl
          · cases side
        · rcases right with ⟨_, side⟩ | ⟨rfl, _⟩
          · cases side
          · rfl
      · exact absurd right (none h' w)
    · rcases right with ⟨same, _⟩ | right
      · subst same
        exact absurd left (none h w)
      · exact piped.single page' w h h' left right

/-- `pipeclose` at the end of the last reference to an end of the pipe. -/
theorem closes (piped : Piped ftable pipe) {w : Bool} (is : (ftable f).IsEnd page w)
    (free : a.ref = 0) {d : Pipe} (here : pipe page = some e)
    (reads : d.readopen = true ↔ w = true ∧ e.readopen = true)
    (writes : d.writeopen = true ↔ w = false ∧ e.writeopen = true) :
    Piped (update ftable f a)
      (update pipe page (if d.readopen = false ∧ d.writeopen = false then none else some d)) := by
  have ends : ∀ g pagd w', (update ftable f a g).IsEnd pagd w' ↔ g ≠ f ∧ (ftable g).IsEnd pagd w' := by
    intro g pagd w'
    by_cases me : g = f
    · subst me
      rw [update_self]
      refine ⟨fun no => absurd no.1 (by omega), fun no => absurd rfl no.1⟩
    · rw [update_of_ne me]
      exact ⟨fun yes => ⟨me, yes⟩, fun yes => yes.2⟩
  have side : ∀ w', (∃ g, g ≠ f ∧ (ftable g).IsEnd page w') ↔ w' ≠ w ∧ ∃ g, (ftable g).IsEnd page w' := by
    intro w'
    constructor
    · rintro ⟨g, other, isG⟩
      refine ⟨?_, g, isG⟩
      rintro rfl
      exact other (piped.single page _ g f isG is)
    · rintro ⟨different, g, isG⟩
      refine ⟨g, ?_, isG⟩
      rintro rfl
      exact different (isG.2.2.2.symm.trans is.2.2.2)
  have readers : d.readopen = true ↔ ∃ g, g ≠ f ∧ (ftable g).IsEnd page false := by
    rw [reads, side, piped.reads page e here]
    cases w <;> simp
  have writers : d.writeopen = true ↔ ∃ g, g ≠ f ∧ (ftable g).IsEnd page true := by
    rw [writes, side, piped.writes page e here]
    cases w <;> simp
  refine ⟨fun pagd gone g w' => ?_, fun pagd e' there => ?_, fun pagd e' there => ?_, fun pagd e' there => ?_,
    fun pagd w' g g' left right => ?_⟩
  · rw [ends]
    rintro ⟨other, isG⟩
    by_cases same : pagd = page
    · subst same
      rw [update_self] at gone
      split at gone
      · rename_i shut
        cases w' with
        | false => exact absurd (readers.2 ⟨g, other, isG⟩) (by rw [shut.1]; nofun)
        | true => exact absurd (writers.2 ⟨g, other, isG⟩) (by rw [shut.2]; nofun)
      · cases gone
    · rw [update_of_ne same] at gone
      exact piped.gone pagd gone g w' isG
  · simp only [ends]
    by_cases same : pagd = page
    · subst same
      rw [update_self] at there
      split at there
      · cases there
      · cases there
        exact readers
    · rw [update_of_ne same] at there
      rw [piped.reads pagd e' there]
      refine ⟨fun ⟨g, isG⟩ => ⟨g, ?_, isG⟩, fun ⟨g, _, isG⟩ => ⟨g, isG⟩⟩
      rintro rfl
      exact same (isG.2.2.1.symm.trans is.2.2.1)
  · simp only [ends]
    by_cases same : pagd = page
    · subst same
      rw [update_self] at there
      split at there
      · cases there
      · cases there
        exact writers
    · rw [update_of_ne same] at there
      rw [piped.writes pagd e' there]
      refine ⟨fun ⟨g, isG⟩ => ⟨g, ?_, isG⟩, fun ⟨g, _, isG⟩ => ⟨g, isG⟩⟩
      rintro rfl
      exact same (isG.2.2.1.symm.trans is.2.2.1)
  · by_cases same : pagd = page
    · subst same
      rw [update_self] at there
      split at there
      · cases there
      · rename_i shut
        cases there
        cases read : d.readopen with
        | true => exact .inl rfl
        | false =>
          refine .inr ?_
          by_contra write
          exact shut ⟨read, by simpa using write⟩
    · rw [update_of_ne same] at there
      exact piped.used pagd e' there
  · rw [ends] at left right
    exact piped.single pagd w' g g' left.2 right.2

end Piped

end MiniOS
