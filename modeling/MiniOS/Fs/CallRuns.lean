import MiniOS.Lib.Trace
import MiniOS.Fs.Agrees
import MiniOS.Fs.CallOutcomes

namespace MiniOS

open Lib Function

namespace View

variable {v v' : View} {p : Fin nproc} {i d c : Nat} {n m : Node} {name path : Bytes} {E : Set Nat}

/-- A view between calls, or within a call that has still to drop the inodes `E`: the directories consist of whole
entries for inodes of the disk, an inode without links is in use, and the processes have a current directory. -/
structure Steady (v : View) (E : Set Nat) : Prop where
  root : rootino < v.ninodes
  dirs : ∀ {i n}, v.node i = some n → n.type = tDir → n.data.length % 16 = 0 ∧ n.Names v.ninodes
  used : ∀ {i}, v.Dead i → i ∈ E ∨ 0 < v.uses i
  tidy : v.Tidy
  home : ∀ p, (v.proc p).state ≠ .unused → (v.proc p).state ≠ .zombie → ∃ c, (v.proc p).cwd = some c

theorem uses_install {f : Fin nfile} (ofile : Fin nofile → Option (Fin nfile)) (e : Opened)
    (free : (v.file f).ref = 0) :
    v.uses i ≤ (v.install p ofile f e).uses i := by
  have files := (v.setProc p { v.proc p with ofile := ofile }).uses_setFile f e i
  have procs := Nat.add_right_cancel (v.uses_setProc p { v.proc p with ofile := ofile } i)
  have closed : ((v.setProc p { v.proc p with ofile := ofile }).file f).target = none := target_of_free free
  rw [closed, if_neg nofun, procs] at files
  exact (Nat.le_add_right ..).trans_eq files.symm

namespace Steady

theorem walkable (steady : v.Steady ∅) : v.Walkable 0 := by
  have kept : ∀ i, v.Keeps 0 i := fun i dead => .inl ((steady.used dead).resolve_left nofun)
  refine ⟨steady.root, kept _, fun there dir => (steady.dirs there dir).1, fun there dir found => ?_,
    fun _ _ _ => .inr (kept _)⟩
  obtain ⟨whole, names⟩ := steady.dirs there dir
  obtain ⟨x, de, -, here, -, -, rfl⟩ := lookup_entry whole found
  exact names de (List.mem_of_getElem? here)

/-- An inode changes or is freed, and has to be dropped if it has no links. -/
theorem setNode {F : Set Nat} {new : Option Node} (steady : v.Steady E)
    (dir : ∀ n ∈ new, n.type = tDir → n.data.length % 16 = 0 ∧ n.Names v.ninodes)
    (linked : ∀ n ∈ new, n.nlink = 0 → i ∈ F) (rest : ∀ j ∈ E, j = i ∨ j ∈ F) : (v.setNode i new).Steady F := by
  refine ⟨steady.root, fun {j m} there isDir => ?_, fun {j} dead => ?_, steady.tidy, steady.home⟩
  · by_cases same : j = i
    · rw [same, setNode_node_self] at there
      exact dir m there isDir
    · rw [setNode_node_of_ne _ same] at there
      exact steady.dirs there isDir
  · by_cases same : j = i
    · obtain ⟨m, there, zero⟩ := dead
      rw [same, setNode_node_self] at there
      exact .inl (same ▸ linked m there zero)
    · exact (steady.used ((setNode_dead_of_ne same).1 dead)).imp_left fun member => (rest j member).resolve_left same

theorem drop (steady : v.Steady (insert i E)) : (v.drop i).Steady E := by
  rw [View.drop]
  split
  · exact steady.setNode (fun _ wrong => by cases wrong) (fun _ wrong => by cases wrong) fun _ => id
  · rename_i kept
    refine { steady with used := fun {j} dead => ?_ }
    obtain (rfl | member) | used := steady.used dead
    · exact .inr (Nat.pos_of_ne_zero fun unused => kept ⟨dead, unused⟩)
    · exact .inl member
    · exact .inr used

/-- An entry of a directory is written, for an inode of the disk. -/
theorem put {x : Nat} (de : Dirent) (steady : v.Steady E) (there : v.node d = some m) (dir : m.type = tDir)
    (length : de.name.length = 14) (start : x ≤ (entries m.data).length) (inside : de.inum.toNat < v.ninodes)
    (nlink : BitVec 16) :
    (v.setNode d (some { m.write (16 * x) de.toBytes with nlink := nlink })).Steady (insert d E) := by
  obtain ⟨dir', put⟩ := Node.IsDir.put de ⟨dir, (steady.dirs there dir).1⟩ length start
  refine steady.setNode (fun n new _ => ?_) (fun _ _ _ => .inl rfl) fun _ => .inr ∘ .inr
  cases new
  refine ⟨dir'.whole, fun de' member => ?_⟩
  rw [put] at member
  obtain rfl | old := mem_putEntry member
  · exact inside
  · exact (steady.dirs there dir).2 de' old

theorem link (steady : v.Steady E) (there : v.node d = some m) (dir : m.type = tDir) (inside : i < v.ninodes)
    (nlink : BitVec 16) :
    (v.setNode d (some ({ m with nlink := nlink }.link name i))).Steady (insert d E) := by
  obtain ⟨x, place, start, -⟩ := freeOff_entry m.data (steady.dirs there dir).1
  rw [Node.link, place]
  refine steady.put ⟨BitVec.ofNat 16 i, strncpy name dirsiz⟩ there dir (strncpy_length ..) start ?_ nlink
  exact Nat.lt_of_le_of_lt (Nat.mod_le ..) inside

theorem sysUnlink {r : Int} (steady : v.Steady ∅) (ans : v.sysUnlink p path = .ok (r, v')) : v'.Steady ∅ := by
  obtain ⟨-, rfl⟩ | ⟨-, d, m, name, j, n, off, walked, place, found, there, rfl⟩ := sysUnlink_ok ans
  · exact steady
  · obtain ⟨m', place', dir⟩ := (namex_found steady.walkable walked).2 rfl
    cases place.symm.trans place'
    obtain ⟨x, de, rfl, here, -⟩ := lookup_entry (steady.dirs place dir).1 found
    have start : x ≤ (entries m.data).length := (List.getElem?_eq_some_iff.1 here).1.le
    have cleared : ((v.setNode d (some (unlinkedFrom m n (16 * x)))).drop d).Steady ∅ :=
      (steady.put ⟨0, List.replicate dirsiz 0⟩ place dir rfl start (Nat.zero_lt_of_lt steady.root) _).drop
    refine (cleared.setNode (fun x new isDir => ?_) (fun _ _ _ => .inl rfl) nofun).drop
    cases new
    have same : ((v.setNode d (some (unlinkedFrom m n (16 * x)))).drop d).ninodes = v.ninodes := by
      rw [View.drop]
      split <;> rfl
    have dir := steady.dirs there isDir
    exact ⟨dir.1, same ▸ dir.2⟩

theorem sysChdir {r : Int} (steady : v.Steady ∅) (ans : v.sysChdir p path = .ok (r, v')) : v'.Steady ∅ := by
  obtain ⟨-, rfl⟩ | ⟨-, i, rfl⟩ := sysChdir_ok ans
  · exact steady
  · have moved : (v.setCwd p (some i)).Steady (insert ((v.proc p).cwd.getD 0) ∅) := by
      refine ⟨steady.root, steady.dirs, fun {j} dead => ?_, steady.tidy, fun q unused zombie => ?_⟩
      · have uses := v.uses_setCwd p (some i) j
        by_cases mine : (v.proc p).cwd = some j
        · exact .inl (.inl (by rw [mine, Option.getD_some]))
        · rw [if_neg mine] at uses
          have := (steady.used dead).resolve_left nofun
          exact .inr (by omega)
      · by_cases mine : q = p
        · exact ⟨i, mine ▸ v.cwd_setCwd p (some i)⟩
        · simp only [setCwd, setProc, update_of_ne mine] at unused zombie ⊢
          exact steady.home q unused zombie
    exact moved.drop

variable {s : Fs} {r : Int} (good : Good v 0 ∅ s) (steady : v.Steady ∅)

include good steady

theorem sysLink {old new : Bytes} (ans : v.sysLink p old new = .ok (r, v')) : v'.Steady ∅ := by
  obtain ⟨-, rfl⟩ | ⟨-, i, n, d, m, name, x, -, there, file, walked, place, -, rfl⟩ := sysLink_ok ans
  · exact steady
  · obtain ⟨m', place', dir⟩ := (namex_found steady.walkable walked).2 rfl
    have apart : d ≠ i := by
      rintro rfl
      cases there.symm.trans place'
      exact file dir
    have more : (v.setNode i (some { n with nlink := n.nlink + 1 })).Steady (insert i ∅) := by
      refine steady.setNode (fun x new isDir => ?_) (fun _ _ _ => .inl rfl) nofun
      cases new
      exact absurd isDir file
    rw [setNode_node_of_ne _ apart] at place
    cases place.symm.trans place'
    exact (more.link ((setNode_node_of_ne _ apart).trans place) dir (good.node_inside there) m.nlink).drop.drop

theorem create {type major minor : BitVec 16} {r : Option Nat}
    (ans : v.create p path type major minor = .ok (r, v')) : v'.Steady ∅ := by
  obtain ⟨rfl, -⟩ | ⟨i, d, m, name, -, walked, place, -, free, -, rfl⟩ := create_ok ans
  · exact steady
  · obtain ⟨m', place', dir⟩ := (namex_found steady.walkable walked).2 rfl
    cases place.symm.trans place'
    obtain ⟨gone, real, inside⟩ := freeInode_eq_some free
    have apart : d ≠ i := by
      rintro rfl
      cases gone.symm.trans place
    have new : (v.setNode i (some (newNode i d type major minor))).Steady ∅ := by
      refine steady.setNode (fun n new isDir => ?_) (fun n new zero => ?_) nofun
      · cases new
        have isDir : type = tDir := isDir
        rw [Node.Names, newNode, if_pos isDir]
        refine ⟨by rw [dots_length], fun de member => ?_⟩
        obtain number | number := Good.mem_dots (good.real_number inside real) member
        · rw [number]
          exact Nat.lt_of_le_of_lt (Nat.mod_le ..) inside
        · rw [number]
          exact Nat.lt_of_le_of_lt (Nat.mod_le ..) (good.node_inside place)
      · cases new
        cases zero
    exact (new.link ((setNode_node_of_ne _ apart).trans place) dir inside _).drop

theorem sysOpen {omode : BitVec 32} (ans : v.sysOpen p path omode = .ok (r, v')) : v'.Steady ∅ := by
  obtain ⟨o, w, found, ans⟩ := sysOpen_ok ans
  have steady : w.Steady ∅ := by
    obtain ⟨-, made⟩ | ⟨-, rfl⟩ := openInode_ok found
    · exact create good steady made
    · exact steady
  obtain rfl | ⟨-, ofile, f, e, free, opened, rfl⟩ := ans
  · exact steady
  · refine ⟨steady.root, steady.dirs, fun dead => .inr ?_, install_tidy steady.tidy opened, fun q => ?_⟩
    · exact Nat.lt_of_lt_of_le ((steady.used dead).resolve_left nofun) (uses_install ofile e free)
    · rw [(w.install_proc p q f).1, (w.install_proc p q f).2]
      exact steady.home q

theorem call {call : NameCall} (ans : v.call p call = .ok (r, v')) : v'.Steady ∅ := by
  have create : ∀ {path type major minor}, v.sysCreate p path type major minor = .ok (r, v') → v'.Steady ∅ := by
    intro path type major minor ans
    obtain ⟨o, made, -⟩ := sysCreate_ok ans
    exact create good steady made
  unfold View.call at ans
  split at ans
  · exact sysOpen good steady ans
  · exact sysLink good steady ans
  · exact steady.sysUnlink ans
  · exact create ans
  · exact create ans
  · exact steady.sysChdir ans
  · cases ans
    exact steady

end Steady

end View

/-- A live process makes a call, which returns. -/
def Fs.CallStep (s : Fs) (event : Option (Fin nproc × NameCall × Int)) (t : Fs) : Prop :=
  ∃ p call r, event = some (p, call, r) ∧ (s.proc p).Alive ∧ call.call.run p s = .ok (r, t)

def View.CallStep (v : View) (event : Option (Fin nproc × NameCall × Int)) (w : View) : Prop :=
  ∃ p call r, event = some (p, call, r) ∧ v.call p call = .ok (r, w)

/-- The state is that of a file system of nodes, without inode cache and disk. -/
structure Fs.Follows (s : Fs) (v : View) : Prop where
  good : Good v 0 ∅ s
  steady : v.Steady ∅

theorem Fs.Follows.call {s : Fs} {v : View} {p : Fin nproc} (follows : s.Follows v) (alive : (s.proc p).Alive)
    (call : NameCall) :
    wp (call.call.run p) s (Good.Ends (v.call p call)) (Good.Stops v (v.call p call)) := by
  have state := (follows.good.proc p).1
  obtain ⟨c, here⟩ := follows.steady.home p (state ▸ alive.1) (state ▸ alive.2)
  exact follows.good.call follows.steady.walkable follows.steady.tidy here call

theorem Fs.Follows.step {s t : Fs} {v : View} {event : Option (Fin nproc × NameCall × Int)} (follows : s.Follows v)
    (step : s.CallStep event t) : ∃ w, v.CallStep event w ∧ t.Follows w := by
  obtain ⟨p, call, r, rfl, alive, ended⟩ := step
  obtain ⟨w, ans, good⟩ := wp_ok (follows.call alive call) ended
  exact ⟨w, ⟨p, call, r, rfl, ans⟩, good, .call follows.good follows.steady ans⟩

/-- However live processes open, create, link and remove files and change their directories, the calls return what
they return in the file system of nodes, and a call stops only if it stops there or room is lacking. -/
theorem name_calls_refine {v : View} {s t : Fs} {events : List (Fin nproc × NameCall × Int)} (start : s.Follows v)
    (trace : Trace Fs.CallStep s events t) : ∃ w, Trace View.CallStep v events w ∧ t.Follows w ∧
      ∀ p (call : NameCall) e, (t.proc p).Alive → call.call.run p t = .error e →
        w.call p call = .error e ∨ w.Lacks e := by
  obtain ⟨w, run, follows⟩ := Trace.simulates Fs.Follows.step start trace
  refine ⟨w, run, follows, fun p call e alive stopped => ?_⟩
  have stops := wp_error (follows.call alive call) stopped
  exact stops

theorem emptyView_steady : emptyView.Steady ∅ := by
  refine ⟨by decide, fun there _ => ?_, fun ⟨n, there, zero⟩ => ?_, emptyView_consistent.tidy,
    emptyView_consistent.home⟩
  · rw [emptyView_only there]
    exact ⟨rfl, nofun⟩
  · rw [emptyView_only there] at zero
    cases zero

theorem emptyFs_follows : emptyFs.Follows emptyView := ⟨emptyFs_good, emptyView_steady⟩

/-- The calls return, one after the other, what is said of them, and the state after them is as wanted. -/
def Fs.Returns (wanted : Fs → Bool) : List (Fin nproc × NameCall × Int) → Fs → Bool
  | [], s => wanted s
  | (p, call, r) :: rest, s =>
    decide ((s.proc p).Alive ∧ wp (call.call.run p) s (fun r' t => r' = r ∧ Fs.Returns wanted rest t = true)
      fun _ => False)

theorem Fs.Returns.trace {wanted : Fs → Bool} {s u : Fs} {before events : List (Fin nproc × NameCall × Int)}
    (earlier : Trace Fs.CallStep s before u) (returns : Fs.Returns wanted events u = true) :
    ∃ t, Trace Fs.CallStep s (before ++ events) t ∧ wanted t = true := by
  induction events generalizing before u with
  | nil =>
    rw [List.append_nil]
    exact ⟨u, earlier, returns⟩
  | cons event rest ih =>
    obtain ⟨p, call, r⟩ := event
    obtain ⟨alive, ends⟩ := of_decide_eq_true returns
    obtain ⟨_, u', ended, rfl, later⟩ := wp_ends ends
    have step : u.CallStep (some (p, call, _)) u' := ⟨p, call, _, rfl, alive, ended⟩
    obtain ⟨t, trace, last⟩ := ih (earlier.next step) later
    rw [Option.toList_some, List.append_assoc] at trace
    exact ⟨t, trace, last⟩

/-- The first process makes the directory "d" and the file "f". -/
def dirAndFile : List (Fin nproc × NameCall × Int) :=
  [(0, .mkdir (some [0x64]), 0), (0, .open (some ([0x66], 0x202)), 0)]

/-- The file "f" gets the name "d/g" as well, loses the name "f", and the process changes to "d". -/
def fileMoved : List (Fin nproc × NameCall × Int) :=
  dirAndFile ++ [(0, .link (some [0x66]) (some [0x64, slash, 0x67]), 0), (0, .unlink (some [0x66]), 0),
    (0, .chdir (some [0x64]), 0)]

theorem name_calls_refine_file_moved : ∃ t w, Trace Fs.CallStep emptyFs fileMoved t ∧
    Trace View.CallStep emptyView fileMoved w ∧ t.Follows w := by
  have returns : Fs.Returns (fun _ => true) fileMoved emptyFs = true := by decide +kernel
  obtain ⟨t, trace, -⟩ := Fs.Returns.trace .start returns
  obtain ⟨w, run, follows, -⟩ := name_calls_refine emptyFs_follows trace
  exact ⟨t, w, trace, run, follows⟩

section Failing

variable {v w : View} {s t : Fs} {p : Fin nproc} {call : NameCall}

/-- The call is an `open` that is to make a file: the path ends with a name that its directory does not have. -/
def View.Creates (v : View) (p : Fin nproc) : NameCall → Prop
  | .open (some (path, omode)) => omode &&& oCreate ≠ 0 ∧ ∃ d m name, v.namex p path true = .ok (some (d, name)) ∧
      v.node d = some m ∧ lookup m.data name = none
  | _ => False

theorem View.openInode_nodes {path : Bytes} {omode : BitVec 32} {r : Option Nat}
    (ans : v.openInode p path omode = .ok (r, w)) :
    w.node = v.node ↔ ¬v.Creates p (.open (some (path, omode))) := by
  obtain ⟨flag, made⟩ | ⟨flag, rfl⟩ := openInode_ok ans
  · obtain ⟨rfl, -, known⟩ | ⟨i, d, m, name, rfl, walked, place, absent, free, -, same⟩ := create_ok made
    · refine iff_of_true rfl ?_
      rintro ⟨_, d, m, name, walked, place, absent⟩
      exact known d m name walked place absent
    · have gone := (freeInode_eq_some free).1
      refine iff_of_false (fun kept => ?_) fun none => none ⟨flag, d, m, name, walked, place, absent⟩
      have apart : i ≠ d := by
        rintro rfl
        cases gone.symm.trans place
      have there := congrFun kept i
      rw [same, drop_node_of_ne apart, setNode_node_of_ne _ apart, setNode_node_self, gone] at there
      cases there
  · exact iff_of_true rfl fun creates => creates.1 flag

theorem View.failed_call (ans : v.call p call = .ok (-1, w)) : w.node = v.node ↔ ¬v.Creates p call := by
  have create : ∀ {path type major minor}, v.sysCreate p path type major minor = .ok (-1, w) → w = v := by
    intro path type major minor ans
    obtain ⟨o, made, none⟩ := sysCreate_ok ans
    obtain ⟨same, -⟩ | ⟨i, d, m, name, new, -⟩ := create_ok made
    · exact same
    · cases (none rfl).symm.trans new
  have same : w = v → (w.node = v.node ↔ ¬False) := fun same => iff_of_true (same ▸ rfl) id
  unfold View.call at ans
  split at ans
  · obtain ⟨o, u, found, rfl | ⟨wrong, -⟩⟩ := sysOpen_ok ans
    · exact openInode_nodes found
    · exact absurd wrong (by decide)
  · exact same ((sysLink_ok ans).resolve_right fun done => absurd done.1 (by decide)).2
  · exact same ((sysUnlink_ok ans).resolve_right fun done => absurd done.1 (by decide)).2
  · exact same (create ans)
  · exact same (create ans)
  · exact same ((sysChdir_ok ans).resolve_right fun done => absurd done.1 (by decide)).2
  · rename_i other _ _ _ _ _
    cases ans
    refine iff_of_true rfl fun creates => ?_
    unfold View.Creates at creates
    split at creates
    · exact other _ _ rfl
    · exact creates

/-- A call that returns -1 leaves the files as they were, exactly if it is not an `open` that has made its file. -/
theorem failed_call_keeps_files (follows : s.Follows v) (alive : (s.proc p).Alive)
    (failed : call.call.run p s = .ok (-1, t)) :
    nodeAt t.sb t.block = nodeAt s.sb s.block ↔ ¬v.Creates p call := by
  obtain ⟨w, ans, good⟩ := wp_ok (follows.call alive call) failed
  rw [← good.disk.nodes, ← follows.good.disk.nodes]
  exact View.failed_call ans

/-- The link of "f" to the name "d", which is there already, is undone. -/
theorem failed_call_undoes_link : ∃ s t, Trace Fs.CallStep emptyFs dirAndFile s ∧
    (NameCall.link (some [0x66]) (some [0x64])).call.run 0 s = .ok (-1, t) ∧
    nodeAt t.sb t.block = nodeAt s.sb s.block := by
  have returns : Fs.Returns (fun s => decide ((s.proc 0).Alive ∧
      wp ((NameCall.link (some [0x66]) (some [0x64])).call.run 0) s (fun r _ => r = -1) fun _ => False))
        dirAndFile emptyFs = true := by
    decide +kernel
  obtain ⟨s, trace, last⟩ := Fs.Returns.trace .start returns
  obtain ⟨alive, ends⟩ := of_decide_eq_true last
  obtain ⟨_, t, failed, rfl⟩ := wp_ends ends
  obtain ⟨v, -, follows⟩ := Trace.simulates Fs.Follows.step emptyFs_follows trace
  exact ⟨s, t, trace, failed, (failed_call_keeps_files follows alive failed).2 id⟩

/-- The first process has opened the root directory 16 times, and makes a file. -/
theorem failed_open_makes_file : ∃ s t : Fs,
    (List.range 16).forM (fun _ => discard (sysOpen 0 (some ([slash], 0)))) emptyFs = .ok ((), s) ∧
      (NameCall.open (some ([0x61], 0x202))).call.run 0 s = .ok (-1, t) ∧
      nodeAt t.sb t.block ≠ nodeAt s.sb s.block := by
  have steps : decide (wp ((List.range 16).forM fun _ => discard (sysOpen 0 (some ([slash], 0)))) emptyFs (fun _ s =>
      decide (wp ((NameCall.open (some ([0x61], 0x202))).call.run 0) s (fun r t => r = -1 ∧
        nodeAt t.sb t.block 2 ≠ nodeAt s.sb s.block 2)
        fun _ => False) = true) fun _ => False) = true := by
    decide +kernel
  obtain ⟨_, s, opened, next⟩ := ends_of_decide steps
  obtain ⟨_, t, failed, rfl, new⟩ := ends_of_decide next
  exact ⟨s, t, opened, failed, fun same => new (congrFun same 2)⟩

end Failing

end MiniOS
