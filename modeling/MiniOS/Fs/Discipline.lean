import Mathlib.Data.Multiset.ZeroCons
import MiniOS.Fs.Frame

namespace MiniOS

open Lib

/-- A reference to an entry of the inode cache that the running call holds, with
the number of its inode. It is `loaded` after `ilock`. -/
structure Handle where
  ip : Fin ninode
  inum : Nat
  loaded : Bool

section Steps

variable {s : Fs} {err : Stop → Prop} {α : Type} {post : α → Fs → Prop} {c : Prop} {message : String}

theorem wp_inode (ip : Fin ninode) {f : Inode → FsM α} (rest : wp (f (s.icache ip)) s post err) :
    wp (inode ip >>= f) s post err := rest

theorem wp_panicIf [Decidable c] {post : Unit → Fs → Prop} (stops : c → err (.panic message))
    (rest : ¬c → post () s) : wp (panicIf c message) s post err :=
  wp_ite stops rest

theorem wp_guard [Decidable c] {f : Unit → FsM α}
    (stops : c → err (.panic message)) (rest : ¬c → wp (f ()) s post err) :
    wp (panicIf c message >>= f) s post err := by
  rw [wp_bind]
  exact wp_panicIf stops rest

theorem iunlock_spec {k : Fin ninode} (stops : err (.panic "iunlock")) :
    wp (iunlock k) s (fun _ t => t = s.setInode k { s.icache k with locked := false }) err :=
  wp_inode k (wp_guard (fun _ => stops) fun _ => rfl)

theorem wp_cwd {p : Fin nproc} {post : Fin ninode → Fs → Prop} (stops : (s.proc p).cwd = none → err (.panic "trap"))
    (rest : ∀ ip, (s.proc p).cwd = some ip → post ip s) : wp (cwd p) s post err := by
  refine wp_get_seq ?_
  split
  · exact stops (by assumption)
  · exact rest _ (by assumption)

end Steps

/-- What every read keeps, `exec` keeps while it reads the program. -/
theorem execFile_keeps {s : Fs} {err : Stop → Prop} {ip : Fin ninode} {kvm : Bool}
    {room : Nat → Bool} (inv : Fs → Prop) (reads : ∀ off n s, inv s → wp (readi ip off n) s (fun _ t => inv t) err)
    (right : inv s) :
    wp (execFile ip kvm room) s (fun _ t => inv t) err := by
  have pages : ∀ offset sz is s, inv s → wp (loaduvmFrom ip offset sz is) s (fun _ t => inv t) err := by
    intro offset sz is
    induction is with
    | nil => exact fun _ right => right
    | cons k rest ih =>
      exact fun s right => wp_seq (reads _ _ s right) fun _ t right => wp_ite (fun _ => right) fun _ => ih t right
  have load : ∀ offs sz s, inv s → wp (execLoad ip room offs sz) s (fun _ t => inv t) err := by
    intro offs
    induction offs with
    | nil => exact fun _ _ right => right
    | cons off rest ih =>
      refine fun sz s right => wp_seq (reads off 32 s right) fun ph t right => ?_
      split
      · exact right
      · refine wp_ite (fun _ => right) fun _ => wp_ite (fun _ => ih _ t right) fun _ =>
          wp_ite (fun _ => right) fun _ =>
          wp_ite (fun _ => right) fun _ => wp_seq (pages _ _ _ t right) fun _ t right => ?_
        exact wp_ite (fun _ => ih _ t right) fun _ => right
  refine wp_seq (reads 0 52 s right) fun elf t right => ?_
  split
  · exact right
  · exact wp_ite (fun _ => right) fun _ => load _ _ t right

theorem direntOffs_aligned {size first off : Nat} (mem : off ∈ direntOffs size first) : off % 16 = 0 := by
  obtain ⟨j, -, rfl⟩ := List.mem_map.1 mem
  exact Nat.mul_mod_right 16 j

/-- `dirlookup` returns the offset of an entry. -/
theorem dirlookup_aligned (dp : Fin ninode) (name : Bytes) (s : Fs) :
    wp (dirlookup dp name) s (fun r _ => ∀ ip off, r = some (ip, off) → off % 16 = 0) fun _ => True := by
  have loop : ∀ (offs : List Nat) (s : Fs), (∀ off ∈ offs, off % 16 = 0) →
      wp (dirlookupFrom dp name offs) s (fun r _ => ∀ ip off, r = some (ip, off) → off % 16 = 0) fun _ => True := by
    intro offs
    induction offs with
    | nil => exact fun _ _ => nofun
    | cons off rest ih =>
      intro s aligned
      have later := fun t => ih t fun off' mem => aligned off' (.tail off mem)
      refine wp_seq (wp_true _ _) fun de t _ => wp_ite (fun _ => later t) fun _ =>
        wp_ite (fun _ => ?_) fun _ => later t
      refine wp_inode dp (wp_seq (wp_true _ _) fun ip _ _ => ?_)
      rintro _ _ ⟨⟩
      exact aligned off (.head _)
  exact wp_inode dp (wp_guard (fun _ => trivial) fun _ => loop _ s fun _ => direntOffs_aligned)

/-- An invariant over the references that a call holds. Every function that
takes, drops or uses a reference keeps it. -/
structure Discipline (inv : Multiset Handle → Fs → Prop) (err : Stop → Prop) : Prop where
  other : ∀ e : Stop, e.Uncounted → e ≠ .panic "freeing free block" → err e
  number : ∀ {h X s}, inv (h ::ₘ X) s → (s.icache h.ip).inum = h.inum
  root : ∀ {X s}, inv X s → wp (iget rootdev rootino) s (fun ip t => ∃ i, inv (⟨ip, i, false⟩ ::ₘ X) t) err
  start : ∀ {X s p ip}, inv X s → (s.proc p).cwd = some ip →
    wp (idup ip) s (fun _ t => ∃ i, inv (⟨ip, i, false⟩ ::ₘ X) t) err
  ilock : ∀ {X s ip i b}, inv (⟨ip, i, b⟩ ::ₘ X) s → wp (ilock ip) s (fun _ t => inv (⟨ip, i, true⟩ ::ₘ X) t) err
  iunlock : ∀ {X s} ip, inv X s → wp (iunlock ip) s (fun _ t => inv X t) err
  iput : ∀ {X s h}, inv (h ::ₘ X) s → wp (iput h.ip) s (fun _ t => inv X t) err
  readi : ∀ {X s ip i} off n, inv (⟨ip, i, true⟩ ::ₘ X) s →
    wp (readi ip off n) s (fun _ t => inv (⟨ip, i, true⟩ ::ₘ X) t) err
  dirlookup : ∀ {X s dp d} name, inv (⟨dp, d, true⟩ ::ₘ X) s →
    wp (dirlookup dp name) s (fun r t => match r with
      | none => inv (⟨dp, d, true⟩ ::ₘ X) t
      | some (ip, _) => ∃ i, inv (⟨ip, i, false⟩ ::ₘ ⟨dp, d, true⟩ ::ₘ X) t) err
  dirlink : ∀ {X s dp d h} name, inv (⟨dp, d, true⟩ ::ₘ X) s → h ∈ ⟨dp, d, true⟩ ::ₘ X →
    wp (dirlink dp name h.inum) s (fun _ t => inv (⟨dp, d, true⟩ ::ₘ X) t) err
  clear : ∀ {X s dp d off}, inv (⟨dp, d, true⟩ ::ₘ X) s → off % 16 = 0 →
    wp (writeDirent dp ⟨0, List.replicate dirsiz 0⟩ off "unlink: writei") s
    (fun _ t => inv (⟨dp, d, true⟩ ::ₘ X) t) err
  update : ∀ {X s ip i} (major minor nlink : Dinode → BitVec 16), inv (⟨ip, i, true⟩ ::ₘ X) s →
    wp (do modifyDinode ip fun d => { d with major := major d, minor := minor d, nlink := nlink d }
           iupdate ip) s (fun _ t => inv (⟨ip, i, true⟩ ::ₘ X) t) err
  ialloc : ∀ {X s h type}, inv (h ::ₘ X) s → type ≠ 0 →
    wp (ialloc (s.icache h.ip).dev type) s (fun ip t => ∃ i, inv (⟨ip, i, false⟩ ::ₘ h ::ₘ X) t) err

namespace Discipline

variable {inv : Multiset Handle → Fs → Prop} {err : Stop → Prop} {X : Multiset Handle} {s : Fs}
  {p : Fin nproc} {path : Bytes}

theorem swap {a b : Handle} (right : inv (a ::ₘ b ::ₘ X) s) : inv (b ::ₘ a ::ₘ X) s :=
  Multiset.cons_swap a b X ▸ right

/-- After a lookup the call holds a reference to what was found. -/
def Found (inv : Multiset Handle → Fs → Prop) (X : Multiset Handle) (t : Fs) : Option (Fin ninode) → Prop
  | none => inv X t
  | some ip => ∃ i b, inv (⟨ip, i, b⟩ ::ₘ X) t

section

variable (dis : Discipline inv err)
  {ip dp : Fin ninode} {i off d : Nat} {b parent kvm : Bool} {name : Bytes} {type major minor : BitVec 16}
  {room : Nat → Bool}
include dis

theorem iunlockput {h : Handle} (right : inv (h ::ₘ X) s) : wp (iunlockput h.ip) s (fun _ t => inv X t) err :=
  wp_seq (dis.iunlock h.ip right) fun _ _ right => dis.iput right

theorem readDirent {message : String} (other : err (.panic message))
    (right : inv (⟨ip, i, true⟩ ::ₘ X) s) :
    wp (readDirent ip off message) s (fun _ t => inv (⟨ip, i, true⟩ ::ₘ X) t) err := by
  refine wp_seq (dis.readi off 16 right) fun bytes t right => ?_
  split
  · exact other
  · exact wp_guard (fun _ => other) fun _ => right

theorem namexLoop {rounds : Nat} (right : inv (⟨ip, i, b⟩ ::ₘ X) s) :
    wp (namexLoop parent rounds ip path) s (fun r t => Found inv X t (r.map Prod.fst)) err := by
  induction rounds generalizing s ip i b path with
  | zero => exact dis.other _ (by decide) (by decide)
  | succ rounds ih =>
    simp only [MiniOS.namexLoop]
    split
    · refine wp_ite (fun _ => ?_) fun _ => ⟨i, b, right⟩
      exact wp_seq (dis.iput right) fun _ _ right => right
    · refine wp_seq (dis.ilock right) fun _ t right => wp_inode ip
        (wp_ite (fun _ => ?_) fun _ => wp_ite (fun _ => ?_) fun _ => ?_)
      · exact wp_seq (dis.iunlockput right) fun _ _ right => right
      · exact wp_seq (dis.iunlock ip right) fun _ _ right => ⟨i, true, right⟩
      · refine wp_seq (dis.dirlookup _ right) fun next t right => ?_
        cases next with
        | none => exact wp_seq (dis.iunlockput right) fun _ _ right => right
        | some next =>
          obtain ⟨j, right⟩ := right
          exact wp_seq (dis.iunlockput (swap right)) fun _ _ right => ih right

theorem namex (right : inv X s) :
    wp (namex p path parent) s (fun r t => Found inv X t (r.map Prod.fst)) err := by
  have start : wp (namexStart p path) s (fun ip t => ∃ i, inv (⟨ip, i, false⟩ ::ₘ X) t) err := by
    refine wp_ite (fun _ => dis.root right) fun _ => ?_
    refine wp_seq (wp_cwd (fun _ => dis.other _ (by decide) (by decide)) fun ip here => ?_) fun ip t first => first
    exact dis.start right here
  exact wp_seq start fun ip t right => dis.namexLoop right.choose_spec

theorem namei (right : inv X s) : wp (namei p path) s (fun r t => Found inv X t r) err :=
  wp_seq (dis.namex right) fun _ _ found => found

theorem nameiparent (right : inv X s) : wp (nameiparent p path) s (fun r t => Found inv X t (r.map Prod.fst)) err :=
  dis.namex right

theorem linkBad (right : inv (⟨ip, i, b⟩ ::ₘ X) s) :
    wp (linkBad ip) s (fun _ t => inv X t) err := by
  refine wp_seq (dis.ilock right) fun _ t right => wp_seq_pair (dis.update _ _ _ right) fun _ t right => ?_
  exact wp_seq (dis.iunlockput right) fun _ _ right => right

theorem linkEntry (right : inv (⟨dp, d, true⟩ ::ₘ ⟨ip, i, b⟩ ::ₘ X) s) :
    wp (linkEntry dp ip name) s (fun _ t => inv (⟨dp, d, true⟩ ::ₘ ⟨ip, i, b⟩ ::ₘ X) t) err := by
  refine wp_inode dp (wp_inode ip (wp_ite (fun _ => right) fun _ => ?_))
  rw [dis.number (swap right)]
  exact dis.dirlink name right (Multiset.mem_cons_of_mem (Multiset.mem_cons_self _ X))

theorem sysLink {old new : Option Bytes} (right : inv X s) : wp (sysLink p old new) s (fun _ t => inv X t) err := by
  unfold MiniOS.sysLink
  split
  · refine wp_seq (dis.namei right) fun found t right => ?_
    cases found with
    | none => exact right
    | some ip =>
      obtain ⟨i, b, right⟩ := right
      refine wp_seq (dis.ilock right) fun _ t right => wp_inode ip (wp_ite (fun _ => ?_) fun _ => ?_)
      · exact wp_seq (dis.iunlockput right) fun _ _ right => right
      · refine wp_seq_pair (dis.update _ _ _ right) fun _ t right => wp_seq (dis.iunlock ip right) fun _ t right => ?_
        refine wp_seq (dis.nameiparent right) fun found t right => ?_
        cases found with
        | none => exact dis.linkBad right
        | some found =>
          obtain ⟨d, b, right⟩ := right
          refine wp_seq (dis.ilock right) fun _ t right => wp_seq (dis.linkEntry right) fun r t right => ?_
          refine wp_ite (fun _ => ?_) fun _ => ?_
          · exact wp_seq (dis.iunlockput right) fun _ _ right => dis.linkBad right
          · exact wp_seq (dis.iunlockput right) fun _ _ right => wp_seq (dis.iput right) fun _ _ right => right
  · exact right

theorem isdirempty (right : inv (⟨ip, i, true⟩ ::ₘ X) s) :
    wp (isdirempty ip) s (fun _ t => inv (⟨ip, i, true⟩ ::ₘ X) t) err := by
  have loop : ∀ offs s, inv (⟨ip, i, true⟩ ::ₘ X) s →
      wp (isdiremptyFrom ip offs) s (fun _ t => inv (⟨ip, i, true⟩ ::ₘ X) t) err := by
    intro offs
    induction offs with
    | nil => exact fun _ right => right
    | cons off rest ih =>
      intro s right
      refine wp_seq (dis.readDirent (dis.other _ (by decide) (by decide)) right) fun _ t right => ?_
      exact wp_ite (fun _ => right) fun _ => ih t right
  exact wp_inode ip (loop _ s right)

theorem unlinkable (right : inv (⟨ip, i, true⟩ ::ₘ X) s) :
    wp (unlinkable ip) s (fun _ t => inv (⟨ip, i, true⟩ ::ₘ X) t) err := by
  refine wp_inode ip (wp_guard (fun _ => dis.other _ (by decide) (by decide)) fun _ => ?_)
  exact wp_ite (fun _ => dis.isdirempty right) fun _ => right

theorem unlinkEntry (right : inv (⟨dp, d, true⟩ ::ₘ ⟨ip, i, true⟩ ::ₘ X) s)
    (aligned : off % 16 = 0) :
    wp (unlinkEntry dp ip off) s (fun _ t => inv X t) err := by
  have dotdot : ∀ s, inv (⟨dp, d, true⟩ ::ₘ ⟨ip, i, true⟩ ::ₘ X) s →
      wp (unlinkDotdot dp ip) s (fun _ t => inv (⟨dp, d, true⟩ ::ₘ ⟨ip, i, true⟩ ::ₘ X) t) err :=
    fun s right => wp_inode ip (wp_ite (fun _ => dis.update _ _ _ right) fun _ => right)
  refine wp_seq (dis.clear right aligned) fun _ t right => wp_seq (dotdot t right) fun _ t right => ?_
  refine wp_seq (dis.iunlockput right) fun _ t right => wp_seq_pair (dis.update _ _ _ right) fun _ t right => ?_
  exact wp_seq (dis.iunlockput right) fun _ _ right => right

theorem sysUnlink {path : Option Bytes} (right : inv X s) : wp (sysUnlink p path) s (fun _ t => inv X t) err := by
  unfold MiniOS.sysUnlink
  split
  · exact right
  · refine wp_seq (dis.nameiparent right) fun found t right => ?_
    cases found with
    | none => exact right
    | some found =>
      obtain ⟨d, b, right⟩ := right
      refine wp_seq (dis.ilock right) fun _ t right => wp_ite (fun _ => ?_) fun _ => ?_
      · exact wp_seq (dis.iunlockput right) fun _ _ right => right
      · have both := wp_mono (wp_and (dis.dirlookup found.2 right) (dirlookup_aligned found.1 found.2 _))
          (fun _ _ => id) fun _ => And.left
        refine wp_seq both fun target t ⟨right, aligned⟩ => ?_
        cases target with
        | none => exact wp_seq (dis.iunlockput right) fun _ _ right => right
        | some target =>
          obtain ⟨i, right⟩ := right
          refine wp_seq (dis.ilock right) fun _ t right => wp_seq (dis.unlinkable right) fun empty t right => ?_
          refine wp_ite (fun _ => ?_) fun _ => dis.unlinkEntry (swap right) (aligned _ _ rfl)
          refine wp_seq (dis.iunlockput right) fun _ t right => ?_
          exact wp_seq (dis.iunlockput right) fun _ _ right => right

theorem createDots (right : inv (⟨ip, i, true⟩ ::ₘ ⟨dp, d, true⟩ ::ₘ X) s) :
    wp (createDots dp ip type) s (fun _ t => inv (⟨ip, i, true⟩ ::ₘ ⟨dp, d, true⟩ ::ₘ X) t) err := by
  have failed : err (.panic "create dots") := dis.other _ (by decide) (by decide)
  refine wp_inode dp (wp_inode ip (wp_ite (fun _ => ?_) fun _ => right))
  rw [dis.number right, dis.number (swap right)]
  refine wp_seq_pair (dis.update _ _ _ (swap right)) fun _ t right => ?_
  refine wp_seq (dis.dirlink dot (swap right) (Multiset.mem_cons_self _ _)) fun r t right => ?_
  refine wp_guard (fun _ => failed) fun _ => ?_
  refine wp_seq (dis.dirlink dotdot right (Multiset.mem_cons_of_mem (Multiset.mem_cons_self _ X))) fun r t right => ?_
  exact wp_panicIf (fun _ => failed) fun _ => right

theorem createIn (real : type ≠ 0)
    (right : inv (⟨dp, d, true⟩ ::ₘ X) s) :
    wp (createIn dp name type major minor) s (fun ip t => ∃ i, inv (⟨ip, i, true⟩ ::ₘ X) t) err := by
  refine wp_inode dp (wp_seq (dis.ialloc right real) fun ip t right => ?_)
  obtain ⟨i, right⟩ := right
  refine wp_seq (dis.ilock right) fun _ t right => wp_seq_pair (dis.update _ _ _ right) fun _ t right => ?_
  refine wp_seq (dis.createDots right) fun _ t right => wp_inode ip ?_
  rw [dis.number right]
  refine wp_seq (dis.dirlink name (swap right) (Multiset.mem_cons_of_mem (Multiset.mem_cons_self _ X)))
    fun r t right => ?_
  refine wp_guard (fun _ => dis.other _ (by decide) (by decide)) fun _ => ?_
  exact wp_seq (dis.iunlockput right) fun _ _ right => ⟨i, right⟩

theorem create (real : type ≠ 0) (right : inv X s) :
    wp (create p path type major minor) s (fun r t => match r with
      | none => inv X t
      | some ip => ∃ i, inv (⟨ip, i, true⟩ ::ₘ X) t) err := by
  refine wp_seq (dis.nameiparent right) fun found t right => ?_
  cases found with
  | none => exact right
  | some found =>
    obtain ⟨d, b, right⟩ := right
    refine wp_seq (dis.ilock right) fun _ t right => wp_seq (dis.dirlookup _ right) fun target t right => ?_
    cases target with
    | none => exact wp_seq (dis.createIn real right) fun _ _ right => right
    | some target =>
      obtain ⟨i, right⟩ := right
      refine wp_seq (dis.iunlockput (swap right)) fun _ t right => wp_seq (dis.ilock right) fun _ t right => ?_
      refine wp_inode _ (wp_ite (fun _ => ⟨i, right⟩) fun _ => ?_)
      exact wp_seq (dis.iunlockput right) fun _ _ right => right

theorem openInode {omode : BitVec 32} (right : inv X s) :
    wp (openInode p path omode) s (fun r t => match r with
      | none => inv X t
      | some ip => ∃ i, inv (⟨ip, i, true⟩ ::ₘ X) t) err := by
  refine wp_ite (fun _ => dis.create (by decide) right) fun _ => wp_seq (dis.namei right) fun found t right => ?_
  cases found with
  | none => exact right
  | some ip =>
    obtain ⟨i, b, right⟩ := right
    refine wp_seq (dis.ilock right) fun _ t right => wp_inode ip (wp_ite (fun _ => ?_) fun _ => ⟨i, right⟩)
    exact wp_seq (dis.iunlockput right) fun _ _ right => right

theorem sysCreate (real : type ≠ 0) (right : inv X s) :
    wp (sysCreate p path type major minor) s (fun _ t => inv X t) err := by
  refine wp_seq (dis.create real right) fun found t right => ?_
  cases found with
  | none => exact right
  | some ip => exact wp_seq (dis.iunlockput right.choose_spec) fun _ _ right => right

theorem execFile (right : inv (⟨ip, i, true⟩ ::ₘ X) s) :
    wp (execFile ip kvm room) s (fun _ t => inv (⟨ip, i, true⟩ ::ₘ X) t) err :=
  execFile_keeps (inv (⟨ip, i, true⟩ ::ₘ X)) (fun off n _ right => dis.readi off n right) right

theorem exec {stack : Bool} (right : inv X s) :
    wp (exec p path kvm room stack) s (fun _ t => inv X t) err := by
  refine wp_seq (dis.namei right) fun found t right => ?_
  cases found with
  | none => exact right
  | some ip =>
    obtain ⟨i, b, right⟩ := right
    refine wp_seq (dis.ilock right) fun _ t right => wp_seq (dis.execFile right) fun sz t right => ?_
    exact wp_seq (dis.iunlockput right) fun _ _ right => right

end

end Discipline

end MiniOS
