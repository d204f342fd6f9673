import Mathlib.Data.Fintype.Prod
import MiniOS.Lib.Count
import MiniOS.Fs.Discipline

namespace MiniOS

open Lib Function

/-- The descriptors of all processes. -/
def fds (procs : Fin nproc → ProcFiles) (x : Fin nproc × Fin nofile) : Option (Fin nfile) := (procs x.1).ofile x.2

def cwds (procs : Fin nproc → ProcFiles) (p : Fin nproc) : Option (Fin ninode) := (procs p).cwd

/-- The inode that an open file refers to. -/
def File.inode? (e : File) : Option (Fin ninode) := if 0 < e.ref ∧ e.type = .inode then some e.ip else none

/-- The file is an end of the pipe in the page, the end for writing or the one for reading. -/
def File.IsEnd (page : Nat) (writes : Bool) (e : File) : Prop :=
  0 < e.ref ∧ e.type = .pipe ∧ e.pipe = page ∧ e.writable = writes

/-- A page holds a pipe as long as one of its ends is open, and the pipe says
which ones are. Every end is one file. -/
structure Piped (ftable : Fin nfile → File) (pipe : Nat → Option Pipe) : Prop where
  gone : ∀ page, pipe page = none → ∀ f writes, ¬(ftable f).IsEnd page writes
  reads : ∀ page e, pipe page = some e → (e.readopen = true ↔ ∃ f, (ftable f).IsEnd page false)
  writes : ∀ page e, pipe page = some e → (e.writeopen = true ↔ ∃ f, (ftable f).IsEnd page true)
  used : ∀ page e, pipe page = some e → e.readopen = true ∨ e.writeopen = true
  single : ∀ page writes f g, (ftable f).IsEnd page writes → (ftable g).IsEnd page writes → f = g

/-- The counts of the tables are right, with the references `X` to inodes and `F`
to files that the running call holds. -/
structure Held (X : Multiset Handle) (F : Multiset (Fin nfile)) (procs : Fin nproc → ProcFiles)
    (T : Tables) : Prop where
  files : ∀ f, (T.ftable f).ref = countAt (fds procs) f + F.count f
  inodes : ∀ k, (T.entry k).ref =
    countAt (fun f => (T.ftable f).inode?) k + countAt (cwds procs) k + (X.map Handle.ip).count k
  numbers : ∀ h ∈ X, (T.entry h.ip).inum = h.inum
  unique : ∀ k l, 0 < (T.entry k).ref → 0 < (T.entry l).ref → (T.entry k).dev = (T.entry l).dev →
    (T.entry k).inum = (T.entry l).inum → k = l
  closed : ∀ f, (T.ftable f).ref = 0 → (T.ftable f).type = .none
  unused : ∀ p, (procs p).state = .unused → (∀ fd, (procs p).ofile fd = none) ∧ (procs p).cwd = none

namespace Held

variable {X : Multiset Handle} {F : Multiset (Fin nfile)} {procs : Fin nproc → ProcFiles} {T : Tables} {s : Fs}
  {ip : Fin ninode} {h : Handle} {e : Entry}

theorem reload {i : Nat} {b : Bool} (held : Held (⟨ip, i, b⟩ ::ₘ X) F procs T) (c : Bool) :
    Held (⟨ip, i, c⟩ ::ₘ X) F procs T := by
  refine ⟨held.files, fun k => ?_, fun h mem => ?_, held.unique, held.closed, held.unused⟩
  · rw [held.inodes k, Multiset.map_cons, Multiset.map_cons]
  · rcases Multiset.mem_cons.1 mem with rfl | mem
    · exact held.numbers ⟨ip, i, b⟩ (Multiset.mem_cons_self _ X)
    · exact held.numbers h (Multiset.mem_cons_of_mem mem)

theorem ref_pos (held : Held X F procs T) (mem : h ∈ X) : 0 < (T.entry h.ip).ref := by
  have counted : 0 < (X.map Handle.ip).count h.ip := Multiset.count_pos.2 (Multiset.mem_map_of_mem _ mem)
  rw [held.inodes h.ip]
  omega

/-- An entry with a new reference keeps or gets its number. -/
theorem take (held : Held X F procs T) (ref : e.ref = (T.entry ip).ref + 1)
    (old : 0 < (T.entry ip).ref → e.dev = (T.entry ip).dev ∧ e.inum = (T.entry ip).inum)
    (new : (T.entry ip).ref = 0 → ∀ k, 0 < (T.entry k).ref → (T.entry k).dev = e.dev → (T.entry k).inum ≠ e.inum) :
    Held (⟨ip, e.inum, false⟩ ::ₘ X) F procs { T with entry := update T.entry ip e } := by
  have apart : ∀ k, k ≠ ip → 0 < (T.entry k).ref → (T.entry k).dev = e.dev → (T.entry k).inum ≠ e.inum := by
    intro k other used dev inum
    rcases Nat.eq_zero_or_pos (T.entry ip).ref with free | busy
    · exact new free k used dev inum
    · exact other (held.unique k ip used busy (dev.trans (old busy).1) (inum.trans (old busy).2))
  refine ⟨held.files, fun k => ?_, fun h mem => ?_, fun k l usedK usedL dev inum => ?_, held.closed, held.unused⟩
  · have count := held.inodes k
    rw [Multiset.map_cons]
    by_cases here : k = ip
    · subst here
      simp only [update_self, Multiset.count_cons_self]
      omega
    · simp only [update_of_ne here, Multiset.count_cons_of_ne here]
      exact count
  · rcases Multiset.mem_cons.1 mem with rfl | mem
    · simp only [update_self]
    · by_cases here : h.ip = ip
      · have busy := held.ref_pos mem
        have number := held.numbers h mem
        rw [here] at busy number
        simp only [here, update_self]
        rw [(old busy).2, number]
      · simp only [update_of_ne here]
        exact held.numbers h mem
  · by_cases hereK : k = ip
    · by_cases hereL : l = ip
      · rw [hereK, hereL]
      · subst hereK
        simp only [update_self, update_of_ne hereL] at usedL dev inum
        exact absurd inum.symm (apart l hereL usedL dev.symm)
    · by_cases hereL : l = ip
      · subst hereL
        simp only [update_self, update_of_ne hereK] at usedK dev inum
        exact absurd inum (apart k hereK usedK dev)
      · simp only [update_of_ne hereK, update_of_ne hereL] at usedK usedL dev inum
        exact held.unique k l usedK usedL dev inum

theorem drop (held : Held (h ::ₘ X) F procs T) (ref : e.ref = (T.entry h.ip).ref - 1)
    (dev : e.dev = (T.entry h.ip).dev) (inum : e.inum = (T.entry h.ip).inum) :
    Held X F procs { T with entry := update T.entry h.ip e } := by
  have same : ∀ k, (update T.entry h.ip e k).dev = (T.entry k).dev ∧
      (update T.entry h.ip e k).inum = (T.entry k).inum ∧
      (update T.entry h.ip e k).ref ≤ (T.entry k).ref := by
    intro k
    by_cases here : k = h.ip
    · subst here
      rw [update_self]
      exact ⟨dev, inum, by omega⟩
    · rw [update_of_ne here]
      exact ⟨rfl, rfl, Nat.le_refl _⟩
  refine ⟨held.files, fun k => ?_, fun g mem => ?_, fun k l usedK usedL devs inums => ?_, held.closed, held.unused⟩
  · have count := held.inodes k
    rw [Multiset.map_cons] at count
    by_cases here : k = h.ip
    · subst here
      simp only [update_self]
      rw [Multiset.count_cons_self] at count
      omega
    · simp only [update_of_ne here]
      rwa [Multiset.count_cons_of_ne here] at count
  · exact (same g.ip).2.1.trans (held.numbers g (Multiset.mem_cons_of_mem mem))
  · simp only at usedK usedL devs inums
    rw [(same k).1, (same l).1] at devs
    rw [(same k).2.1, (same l).2.1] at inums
    exact held.unique k l (Nat.lt_of_lt_of_le usedK (same k).2.2) (Nat.lt_of_lt_of_le usedL (same l).2.2) devs inums

end Held

theorem Fs.tables_setInode_eq (s : Fs) (ip : Fin ninode) (e : Inode) :
    (s.setInode ip e).tables = { s.tables with entry := update s.tables.entry ip ⟨e.dev, e.inum, e.ref⟩ } := by
  simp only [Fs.tables, Fs.setInode, Tables.mk.injEq, and_true]
  funext k
  by_cases here : k = ip
  · subst here
    simp only [update_self]
  · simp only [update_of_ne here]

/-- The counts are right with the references `X` and `F` and those of `procs`,
while the process table is `table`. The two differ where a call counts a
reference of a process as its own. -/
def Holds (F : Multiset (Fin nfile)) (procs table : Fin nproc → ProcFiles) (X : Multiset Handle) (s : Fs) : Prop :=
  Held X F procs s.tables ∧ s.proc = table ∧ Piped s.ftable s.pipe

namespace Holds

variable {X : Multiset Handle} {F : Multiset (Fin nfile)} {procs table : Fin nproc → ProcFiles} {s : Fs}
  {dev inum : Nat} {dp : Fin ninode} {name : Bytes}

section

variable (holds : Holds F procs table X s)
include holds

theorem of_tables {t : Fs} (same : t.tables = s.tables) : Holds F procs table X t := by
  have ftable : t.ftable = s.ftable := congrArg Tables.ftable same
  have pipe : t.pipe = s.pipe := congrArg Tables.pipe same
  refine ⟨same ▸ holds.1, (congrArg Tables.proc same).trans holds.2.1, ?_⟩
  rw [ftable, pipe]
  exact holds.2.2

theorem keeps {α : Type} {m : FsM α} (frames : Frames m) :
    wp m s (fun _ t => Holds F procs table X t) Stop.Uncounted :=
  frames.wp fun _ _ => holds.of_tables

theorem iget :
    wp (iget dev inum) s (fun ip t => Holds F procs table (⟨ip, inum, false⟩ ::ₘ X) t) Stop.Uncounted := by
  refine wp_get_seq ?_
  split
  · rename_i ip found
    have match' := List.find?_some found
    simp only [decide_eq_true_eq] at match'
    have taken := holds.1.take (e := ⟨(s.icache ip).dev, (s.icache ip).inum, (s.icache ip).ref + 1⟩) rfl (fun _ =>
      ⟨rfl, rfl⟩)
      fun free => absurd free (Nat.pos_iff_ne_zero.1 match'.1)
    refine ⟨?_, holds.2⟩
    rw [Fs.tables_setInode_eq, ← match'.2.2]
    exact taken
  · rename_i absent
    have absent := List.find?_eq_none.1 absent
    split
    · exact show Stop.Uncounted _ by decide
    · rename_i ip empty
      have empty := List.find?_some empty
      simp only [decide_eq_true_eq] at empty
      have taken := holds.1.take (e := ⟨dev, inum, 1⟩) (congrArg (· + 1) empty.symm)
        (fun busy => absurd empty (Nat.pos_iff_ne_zero.1 busy))
        fun _ k used dev inum => absent k (List.mem_finRange k) (decide_eq_true ⟨used, dev, inum⟩)
      refine ⟨?_, holds.2⟩
      rw [Fs.tables_setInode_eq]
      exact taken

theorem idup {ip : Fin ninode} {p : Fin nproc} (here : (procs p).cwd = some ip) :
    wp (idup ip) s (fun r t => r = ip ∧ Holds F procs table (⟨ip, (s.icache ip).inum, false⟩ ::ₘ X) t)
    Stop.Uncounted := by
  have counted : 0 < countAt (cwds procs) ip := countAt_pos (i := p) here
  have count := holds.1.inodes ip
  have taken := holds.1.take (e := ⟨(s.icache ip).dev, (s.icache ip).inum, (s.icache ip).ref + 1⟩) rfl (fun _ =>
    ⟨rfl, rfl⟩)
    fun free => absurd free (by omega)
  refine ⟨rfl, ?_, holds.2⟩
  rw [Fs.tables_setInode_eq]
  exact taken

end

theorem iput {h : Handle} (holds : Holds F procs table (h ::ₘ X) s) :
    wp (iput h.ip) s (fun _ t => Holds F procs table X t) Stop.Uncounted := by
  refine wp_seq (holds.keeps (.acquiresleep h.ip)) fun _ t holds => wp_seq (holds.keeps (.iputLocked h.ip))
    fun _ t holds =>
    wp_seq (holds.keeps (.releasesleep h.ip)) fun _ t holds => ?_
  refine ⟨?_, holds.2⟩
  rw [Fs.tables_setInode_eq]
  exact holds.1.drop rfl rfl rfl

theorem dirlookup (holds : Holds F procs table X s) :
    wp (dirlookup dp name) s (fun r t => match r with
      | none => Holds F procs table X t
      | some (ip, _) => ∃ i, Holds F procs table (⟨ip, i, false⟩ ::ₘ X) t) Stop.Uncounted := by
  have loop : ∀ offs s, Holds F procs table X s → wp (dirlookupFrom dp name offs) s (fun r t => match r with
      | none => Holds F procs table X t
      | some (ip, _) => ∃ i, Holds F procs table (⟨ip, i, false⟩ ::ₘ X) t) Stop.Uncounted := by
    intro offs
    induction offs with
    | nil => exact fun _ holds => holds
    | cons off rest ih =>
      refine fun s holds => wp_seq (holds.keeps (.readDirent dp off (by decide))) fun de t holds => ?_
      refine wp_ite (fun _ => ih t holds) fun _ => wp_ite (fun _ => wp_inode dp ?_) fun _ => ih t holds
      exact wp_seq holds.iget fun ip t holds => ⟨_, holds⟩
  exact wp_inode dp (wp_guard (fun _ => by decide) fun _ => loop _ s holds)

theorem dirlink (holds : Holds F procs table X s) :
    wp (dirlink dp name inum) s (fun _ t => Holds F procs table X t) Stop.Uncounted := by
  have free : ∀ size offs, Frames (dirlinkFrom dp size offs) := by
    intro size offs
    induction offs with
    | nil => exact .pure _
    | cons off rest ih => exact .bind (Frames.readDirent dp off (by decide)) fun _ => .ite (.pure _) ih
  refine wp_seq holds.dirlookup fun found t holds => ?_
  cases found with
  | some found => exact wp_seq (iput holds.choose_spec) fun _ _ holds => holds
  | none =>
    refine wp_inode dp (wp_seq (holds.keeps (free _ _)) fun off t holds => ?_)
    exact wp_seq (holds.keeps (.writeDirent dp _ off (by decide))) fun _ _ holds => holds

theorem ialloc {type : BitVec 16} (holds : Holds F procs table X s) :
    wp (ialloc dev type) s (fun ip t => ∃ i, Holds F procs table (⟨ip, i, false⟩ ::ₘ X) t) Stop.Uncounted := by
  have loop : ∀ inums s, Holds F procs table X s →
      wp (iallocFrom dev type inums) s (fun ip t => ∃ i,
        Holds F procs table (⟨ip, i, false⟩ ::ₘ X) t) Stop.Uncounted := by
    intro inums
    induction inums with
    | nil => exact fun _ _ => show Stop.Uncounted _ by decide
    | cons inum rest ih =>
      intro s holds
      refine wp_get_seq (wp_seq (holds.keeps (.bread dev _)) fun bp t holds => wp_ite (fun _ => ?_) fun _ =>
        ih t holds)
      exact wp_seq (holds.keeps (.logWrite _ _)) fun _ t holds => wp_mono holds.iget (fun _ _ holds => ⟨inum, holds⟩)
        fun _ => id
  exact loop _ s holds

/-- The name functions keep the counts on any disk. -/
theorem discipline (F : Multiset (Fin nfile)) (procs : Fin nproc → ProcFiles) :
    Discipline (Holds F procs procs) Stop.Uncounted where
  other _ right _ := right
  number holds := holds.1.numbers _ (Multiset.mem_cons_self _ _)
  root holds := wp_mono holds.iget (fun _ _ holds => ⟨_, holds⟩) fun _ => id
  start holds here := wp_mono (holds.idup (holds.2.1 ▸ here)) (fun _ _ holds => ⟨_, holds.2⟩) fun _ => id
  ilock holds := wp_mono (holds.keeps (.ilock _)) (fun _ _ holds => ⟨holds.1.reload true, holds.2⟩) fun _ => id
  iunlock ip holds := holds.keeps (.iunlock ip)
  iput holds := iput holds
  readi off n holds := holds.keeps (.readi _ off n)
  dirlookup _ holds := holds.dirlookup
  dirlink _ holds _ := holds.dirlink
  clear holds _ := holds.keeps (.writeDirent _ _ _ (by decide))
  update _ _ _ holds := holds.keeps (.bind (Frames.modifyDinode _ _) fun _ => Frames.iupdate _)
  ialloc holds _ := holds.ialloc

end Holds

end MiniOS
