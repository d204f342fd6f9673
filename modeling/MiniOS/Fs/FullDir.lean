import MiniOS.Fs.Links
import MiniOS.Fs.Runs

namespace MiniOS

open Lib Relation

/-- The calls that make a name: `link`, `mkdir`, `mknod` and `open` with `O_CREATE`. -/
inductive FsCall.MakesName : FsCall → Prop
  | link (old new : Bytes) : MakesName (.link (some old) (some new))
  | mkdir (path : Bytes) : MakesName (.mkdir (some path))
  | mknod (path : Bytes) (major minor : BitVec 16) : MakesName (.mknod (some (path, major, minor)))
  | create (path : Bytes) (omode : BitVec 32) : omode &&& oCreate ≠ 0 → MakesName (.open (some (path, omode)))

/-- A live process makes a name, and the call returns. -/
inductive NameStep (s : Fs) : Fs → Prop
  | call {t : Fs} (p : Fin nproc) (call : FsCall) (r : Int) :
      (s.proc p).Alive → call.MakesName → call.run p s = .ok (r, t) → NameStep s t

/-- The state has a consistent view, whose room is that of the disk. -/
structure Fs.Shows (s : Fs) (v : View) : Prop where
  good : Good v 0 ∅ s
  right : v.Consistent
  room : v.room = spare (inUse s.sb s.block) s.sb.size + v.blocks

/-- A call that returns with success, or with -1 and the files as they were. -/
def Settles (call : FsM Int) (s : Fs) : Prop :=
  ∃ r t, call s = .ok (r, t) ∧ (0 ≤ r ∨ r = -1 ∧ nodeAt t.sb t.block = nodeAt s.sb s.block)

/-- The directory has a free entry, or it can grow. -/
def Node.HasSlot (m : Node) : Prop := (∃ de ∈ entries m.data, de.inum = 0) ∨ m.data.length < 140 * 512

instance (m : Node) : Decidable m.HasSlot := inferInstanceAs (Decidable (_ ∨ _))

section Runs

variable {s t : Fs} {v : View} {p : Fin nproc}

theorem Good.shows (good : Good v 0 ∅ s) (right : v.Consistent) :
    s.Shows { v with room := spare (inUse s.sb s.block) s.sb.size + v.blocks } := by
  refine ⟨?_, ?_, rfl⟩
  · have total : v.blocks = totalBlocks s.sb.ninodes v.node := by rw [good.ninodes]; rfl
    have entry : ∀ k, (s.icache k).Fits { v with room := spare (inUse s.sb s.block) s.sb.size + v.blocks } 0 ∅
      s.sb s.block := fun k =>
      ⟨(good.entry k).number, (good.entry k).count, (good.entry k).cached, (good.entry k).live, (good.entry k).locked⟩
    exact { good with disk := ⟨good.disk.image, good.disk.nodes, by rw [total]⟩, entry := entry }
  · exact ⟨⟨right.tree.root, right.tree.whole, right.tree.entry⟩, right.zero, right.links, right.tidy, right.home⟩

theorem Good.room_le (good : Good v 0 ∅ s) {k : Nat} (enough : v.blocks + k ≤ v.room) :
    ({ v with room := spare (inUse s.sb s.block) s.sb.size + v.blocks } : View).blocks + k ≤
      ({ v with room := spare (inUse s.sb s.block) s.sb.size + v.blocks } : View).room := by
  have total : v.blocks = totalBlocks s.sb.ninodes v.node := by rw [good.ninodes]; rfl
  have room := good.disk.room
  show v.blocks + k ≤ spare (inUse s.sb s.block) s.sb.size + v.blocks
  omega

theorem Fs.Shows.cwd (shows' : s.Shows v) (alive : (s.proc p).Alive) : ∃ c, (v.proc p).cwd = some c := by
  have state := (shows'.good.proc p).1
  refine shows'.right.home p ?_ ?_
  · rw [state]
    exact alive.1
  · rw [state]
    exact alive.2

theorem Fs.Shows.walkable (shows' : s.Shows v) : v.Walkable 0 := shows'.right.tree.walkable shows'.good.node_inside

theorem NameStep.shows (step : NameStep s t) (before : s.Shows v) : ∃ w, t.Shows w := by
  obtain ⟨p, call, r, alive, makes, ended⟩ := step
  obtain ⟨c, cwd⟩ := before.cwd alive
  have good := before.good
  have right := before.right
  have walkable := before.walkable
  cases makes with
  | link old new =>
    obtain ⟨v', ans, good'⟩ := wp_ok (good.sysLink walkable cwd) ended
    exact ⟨_, good'.shows (good.sysLink_consistent right ans)⟩
  | mkdir path =>
    obtain ⟨v', ans, good'⟩ := wp_ok (good.sysCreate walkable cwd (by decide : tDir ≠ 0)) ended
    exact ⟨_, good'.shows (good.sysCreate_consistent right ans)⟩
  | mknod path major minor =>
    obtain ⟨v', ans, good'⟩ := wp_ok (good.sysCreate walkable cwd (by decide : tDev ≠ 0)) ended
    exact ⟨_, good'.shows (good.sysCreate_consistent right ans)⟩
  | create path omode creates =>
    obtain ⟨v', ans, good'⟩ := wp_ok (good.sysOpen walkable right.tidy cwd) ended
    exact ⟨_, good'.shows (good.sysOpen_consistent right ans)⟩

theorem shows_run (start : s.Shows v) (run : ReflTransGen NameStep s t) : ∃ w, t.Shows w := by
  induction run with
  | refl => exact ⟨v, start⟩
  | tail _ last ih =>
    obtain ⟨w, shows'⟩ := ih
    exact last.shows shows'

end Runs

theorem Node.hasSlot_iff {m : Node} (dir : m.IsDir) (small : m.data.length ≤ 140 * 512) :
    m.HasSlot ↔ freeOff m.data + 16 ≤ 140 * 512 := by
  have whole := dir.whole
  obtain ⟨x, place, start, free⟩ := freeOff_entry m.data whole
  rw [entries_length] at start
  constructor
  · rintro (⟨de, member, zero⟩ | less)
    · obtain ⟨off, inside, rfl⟩ := (mem_entries whole).1 member
      have found : ((direntOffs m.data.length 0).find? fun off => (direntAt m.data off).inum = 0).isSome :=
        List.find?_isSome.2 ⟨off, inside, by simpa using zero⟩
      obtain ⟨first, here⟩ := Option.isSome_iff_exists.1 found
      obtain ⟨j, -, below, same⟩ := (mem_direntOffs whole).1 (List.mem_of_find?_eq_some here)
      rw [freeOff, here, Option.getD_some]
      omega
    · omega
  · intro fits
    by_cases inside : x < m.data.length / 16
    · have here : (entries m.data)[x]? = some (direntAt m.data (16 * x)) := by rw [getElem?_entries, if_pos inside]
      exact .inl ⟨_, List.mem_of_getElem? here, free _ here⟩
    · exact .inr (by omega)

section Calls

variable {s : Fs} {v : View} {p : Fin nproc} {call : FsM Int} {ans : Except Stop (Int × View)} {i : Nat}

/-- The answer in the view is success, or -1 and the nodes as they were. -/
def View.Settled (v : View) : Except Stop (Int × View) → Prop
  | .ok (r, v') => 0 ≤ r ∨ r = -1 ∧ v'.node = v.node
  | .error _ => False

theorem Good.ends_of_ok {r : Int} {v' : View} (right : wp call s (Good.Ends ans) (Good.Stops v ans))
    (enough : ∀ e, ¬v.Lacks e) (ok : ans = .ok (r, v')) : ∃ t, call s = .ok (r, t) ∧ Good v' 0 ∅ t := by
  subst ok
  have ends : wp call s (Good.Ends (.ok (r, v'))) fun _ => False :=
    wp_mono right (fun _ _ => id) fun e stopped => stopped.elim nofun (enough e)
  obtain ⟨r', t, ended, w, same, good'⟩ := wp_ends ends
  cases same
  exact ⟨t, ended, good'⟩

theorem Good.stops_of_error {e : Stop} (right : wp call s (Good.Ends ans) (Good.Stops v ans))
    (enough : ∀ e, ¬v.Lacks e) (stops : ans = .error e) : call s = .error e := by
  subst stops
  have never : wp call s (fun _ _ => False) (Good.Stops v (.error e : Except Stop (Int × View))) :=
    wp_mono right (fun r t ends => by obtain ⟨v', wrong, -⟩ := ends; cases wrong) fun _ => id
  obtain ⟨e', ended, same | lacks⟩ := wp_stops never
  · cases same
    exact ended
  · exact absurd lacks (enough e')

theorem Good.settles_iff (good : Good v 0 ∅ s) (right : wp call s (Good.Ends ans) (Good.Stops v ans))
    (enough : ∀ e, ¬v.Lacks e) :
    Settles call s ↔ v.Settled ans := by
  have before := good.disk.nodes
  constructor
  · rintro ⟨r, t, ended, outcome⟩
    obtain ⟨v', rfl, good'⟩ := wp_ok right ended
    rw [← before, ← good'.disk.nodes] at outcome
    exact outcome
  · intro settled
    match ans, settled with
    | .ok (r, v'), settled =>
      obtain ⟨t, ended, good'⟩ := Good.ends_of_ok right enough rfl
      refine ⟨r, t, ended, ?_⟩
      rw [← before, ← good'.disk.nodes]
      exact settled

/-- The path leads to a file that can have another name. -/
def View.Linkable (v : View) (p : Fin nproc) (old : Bytes) : Prop :=
  ∃ i n x, v.namex p old false = .ok (some (i, x)) ∧ v.node i = some n ∧ n.type ≠ tDir

/-- The path ends with a name that its directory `d` does not have. -/
structure View.NewName (v : View) (p : Fin nproc) (path : Bytes) (d : Nat) (m : Node) (name : Bytes) : Prop where
  walked : v.namex p path true = .ok (some (d, name))
  place : v.node d = some m
  absent : lookup m.data name = none

variable {path old name : Bytes} {d : Nat} {m : Node}

theorem View.NewName.slot (new : v.NewName p path d m name) (good : Good v 0 ∅ s) (right : v.Consistent) :
    m.HasSlot ↔ ¬140 * 512 < freeOff m.data + 16 := by
  obtain ⟨-, m', place, dir⟩ := good.parent_found right new.walked
  cases new.place.symm.trans place
  rw [Node.hasSlot_iff dir (good.small place), not_lt]

theorem View.crowded_withRoom (v : View) (room k : Nat) : { v with room := room }.Crowded k ↔ v.Crowded k := Iff.rfl

theorem View.freeInode_withRoom (v : View) (room : Nat) : { v with room := room }.freeInode = v.freeInode := rfl

/-- The room of the disk does not matter for names. -/
theorem View.NewName.withRoom (new : v.NewName p path d m name)
    (room : Nat) : { v with room := room }.NewName p path d m name := by
  have same : { v with room := room }.namex p path true = v.namex p path true := View.namex_congr rfl fun _ => rfl
  exact ⟨same.trans new.walked, new.place, new.absent⟩

/-- What `sys_link` does with a new name for a file. -/
theorem View.NewName.sysLink_eq (new : v.NewName p path d m name) (good : Good v 0 ∅ s)
    (right : v.Consistent) {n : Node} {x : Bytes} (found : v.namex p old false = .ok (some (i, x)))
    (there : v.node i = some n) (file : n.type ≠ tDir) :
    v.sysLink p old path = if m.HasSlot then .ok (0, v.enter i { n with nlink := n.nlink + 1 } d m name) else .error
    (.panic "dirlink") := by
  obtain ⟨kept, m', place, isDir⟩ := good.parent_found right new.walked
  cases new.place.symm.trans place
  have apart : d ≠ i := by
    rintro rfl
    cases there.symm.trans place
    exact file isDir.type
  have place' : (v.setNode i (some { n with nlink := n.nlink + 1 })).node d = some m :=
    (View.setNode_node_of_ne _ apart).trans place
  rw [View.sysLink, found]
  simp only [View.locked_some there, if_neg file, View.namex_relink there, new.walked, View.linkIn,
    View.locked_some place', new.absent,
    View.addEntry]
  have slot := new.slot good right
  by_cases full : 140 * 512 < freeOff m.data + 16
  · rw [if_pos full, if_neg fun has => slot.1 has full]
  · rw [if_neg full, if_pos (slot.2 full)]
    exact congrArg (fun w => Except.ok (0, w)) (good.drop_linked right kept there place apart)

theorem View.NewName.link (new : v.NewName p path d m name) (shows' : s.Shows v) {c : Nat}
    (cwd : (v.proc p).cwd = some c) (old : Bytes) :
    v.Settled (v.sysLink p old path) ↔ (v.Linkable p old → m.HasSlot) := by
  have good := shows'.good
  have right := shows'.right
  have used := good.used c (View.uses_of_cwd cwd)
  have whole := (right.tree.namex cwd used old).1
  cases found : v.resolve (startOf c old) (components old) with
  | none =>
    rw [found, Option.map_none] at whole
    rw [View.sysLink, whole]
    refine ⟨fun _ linkable => ?_, fun _ => .inr ⟨rfl, rfl⟩⟩
    obtain ⟨i, n, x, walked, -⟩ := linkable
    cases whole.symm.trans walked
  | some i =>
    rw [found, Option.map_some] at whole
    obtain ⟨n', start⟩ := right.tree.start used old
    obtain ⟨n, there⟩ := right.tree.resolved start found
    by_cases dir : n.type = tDir
    · rw [View.sysLink, whole]
      simp only [View.locked_some there, if_pos dir]
      refine ⟨fun _ linkable => ?_, fun _ => .inr ⟨rfl, rfl⟩⟩
      obtain ⟨i', n', x, walked, there', file⟩ := linkable
      cases whole.symm.trans walked
      cases there.symm.trans there'
      exact absurd dir file
    · rw [new.sysLink_eq good right whole there dir]
      split
      · exact ⟨fun _ _ => by assumption, fun _ => .inl (Int.le_refl 0)⟩
      · rename_i full
        exact ⟨False.elim, fun slot => full (slot ⟨i, n, [], whole, there, dir⟩)⟩

/-- What `create` does with a new name. -/
theorem View.NewName.create (type major minor : BitVec 16) (new : v.NewName p path d m name)
    (good : Good v 0 ∅ s) (right : v.Consistent) (free : v.freeInode = some i) :
    (¬m.HasSlot → ∃ e, v.create p path type major minor = .error e) ∧
      (m.HasSlot → ∃ v', v.create p path type major minor = .ok (some i, v') ∧ v'.node ≠ v.node ∧ v'.file = v.file ∧
        v'.proc = v.proc) := by
  rw [new.slot good right, View.create, new.walked]
  simp only [View.locked_some new.place, new.absent, free, View.addEntry]
  refine ⟨fun full => ?_, fun fits => ?_⟩
  · rw [if_pos (not_not.1 full)]
    exact ⟨_, rfl⟩
  · rw [if_neg fits]
    have apart : i ≠ d := by
      rintro rfl
      cases (View.freeInode_eq_some free).1.symm.trans new.place
    refine ⟨_, rfl, fun same => ?_, View.drop_tables ..⟩
    have here := congrFun same i
    rw [View.drop_node_of_ne apart, View.setNode_node_of_ne _ apart, View.setNode_node_self,
      (View.freeInode_eq_some free).1] at here
    cases here

theorem View.not_lacks (free : v.blocks + 3 ≤ v.room) (few : ¬v.Crowded 2) (e : Stop) : ¬v.Lacks e := by
  rintro (⟨-, short⟩ | ⟨-, crowded⟩)
  · omega
  · exact few crowded

end Calls

/-- In every state that calls of `link` and `create` lead to, with three free blocks, a free inode
and room in the inode cache, the calls that make a new name in a directory succeed, or return -1
and leave the files as they are, if and only if the directory has a free entry or can grow and, for
`open`, a file and a descriptor are free. -/
theorem new_name_settles_iff {s₀ s : Fs} {v₀ : View} (start : s₀.Shows v₀) (run : ReflTransGen NameStep s₀ s) :
    (∃ v, s.Shows v) ∧ ∀ v, s.Shows v → ∀ p path d m name, (s.proc p).Alive → v.NewName p path d m name →
    v.blocks + 3 ≤ v.room →
      ¬v.Crowded 2 → v.freeInode.isSome →
        (∀ old, Settles (sysLink p (some old) (some path)) s ↔ (v.Linkable p old → m.HasSlot)) ∧
        (Settles (sysMkdir p (some path)) s ↔ m.HasSlot) ∧
        ∀ omode, omode &&& oCreate ≠ 0 →
          (Settles (sysOpen p (some (path, omode))) s ↔ m.HasSlot ∧ v.freeFile.isSome ∧ (v.freeFd p).isSome) := by
  refine ⟨shows_run start run, fun v shows' p path d m name alive new blocks few inode => ?_⟩
  obtain ⟨c, cwd⟩ := shows'.cwd alive
  have good := shows'.good
  have enough := View.not_lacks blocks few
  obtain ⟨i, free⟩ := Option.isSome_iff_exists.1 inode
  refine ⟨fun old => ?_, ?_, fun omode creates => ?_⟩
  · rw [good.settles_iff (good.sysLink shows'.walkable cwd) enough]
    exact new.link shows' cwd old
  · have settles : Settles (sysMkdir p (some path)) s ↔ v.Settled (v.sysCreate p path tDir 0 0) :=
      good.settles_iff (good.sysCreate shows'.walkable cwd (by decide)) enough
    obtain ⟨full, fits⟩ := new.create tDir 0 0 good shows'.right free
    rw [settles, View.sysCreate]
    by_cases slot : m.HasSlot
    · obtain ⟨v', made, -⟩ := fits slot
      rw [made]
      exact ⟨fun _ => slot, fun _ => Or.inl (Int.le_refl 0)⟩
    · obtain ⟨e, stops⟩ := full slot
      rw [stops]
      exact ⟨False.elim, slot⟩
  · rw [good.settles_iff (good.sysOpen shows'.walkable shows'.right.tidy cwd) enough, View.sysOpen,
      View.openInode, if_pos creates]
    obtain ⟨full, fits⟩ := new.create tFile 0 0 good shows'.right free
    by_cases slot : m.HasSlot
    · obtain ⟨v', made, other, files, procs⟩ := fits slot
      have file : v'.freeFile = v.freeFile := by rw [View.freeFile, files, View.freeFile]
      have fd : v'.freeFd p = v.freeFd p := by rw [View.freeFd, procs, View.freeFd]
      rw [made]
      simp only [file, fd]
      cases v.freeFile with
      | none =>
        exact ⟨fun wrong => absurd wrong (not_or.2 ⟨by decide, fun same => other same.2⟩),
          fun all => by cases all.2.1⟩
      | some f =>
        cases v.freeFd p with
        | none =>
          exact ⟨fun wrong => absurd wrong (not_or.2 ⟨by decide, fun same => other same.2⟩),
            fun all => by cases all.2.2⟩
        | some fd => exact ⟨fun _ => ⟨slot, rfl, rfl⟩, fun _ => Or.inl (Int.natCast_nonneg _)⟩
    · obtain ⟨e, stops⟩ := full slot
      rw [stops]
      exact ⟨False.elim, fun all => slot all.1⟩

section Filling

variable {w : Bytes} {k : Nat}

/-- A process in an empty root directory, on a disk with 150 free blocks or more. -/
def emptyView : View := opensFirst 0 (nodeAt mkfsSuper emptyRoot) 150

def emptyFs : Fs := cachesFirst 0 emptyRoot

theorem emptyFs_good : Good emptyView 0 ∅ emptyFs := by
  have free : 150 ≤ spare (inUse mkfsSuper emptyRoot) mkfsSuper.size := by decide +kernel
  have image := emptyRoot_wellFormed.image
  refine cachesFirst_good ⟨image, rfl, Nat.le_add_right_of_le free⟩ (by decide) fun i low high => ?_
  rw [show i = 1 by omega, rootLocked_node]
  exact ⟨_, rfl, by decide⟩

theorem emptyView_only {i : Nat} {n : Node} (there : emptyView.node i = some n) : n = ⟨tDir, 0, 0, 1, []⟩ := by
  by_cases root : i = 1
  · subst root
    exact Option.some.inj (there.symm.trans rootLocked_node)
  · cases there.symm.trans (emptyRoot_node root)

theorem emptyView_consistent : emptyView.Consistent where
  tree := by
    refine ⟨⟨_, rootLocked_node, by decide⟩, fun there _ => ?_, fun there _ member => ?_⟩
    · rw [emptyView_only there]
      rfl
    · rw [emptyView_only there, entries_nil] at member
      cases member
  zero := emptyRoot_node (i := 0) (by decide)
  links there := by
    rw [emptyView_only there]
    exact Nat.le_add_left 1 _
  tidy f _ := rfl
  home p used _ := by
    by_cases first : p = 0
    · exact ⟨1, opensFirst_cwd.2 ⟨first, rfl⟩⟩
    · exact absurd (if_neg first) used

theorem emptyView_few : ¬emptyView.Crowded 2 := by
  rintro ⟨S, large, used⟩
  have one : S ⊆ {1} := fun i mem => by
    have some := used i mem
    rw [emptyView, opensFirst_uses (by decide)] at some
    split at some
    · exact Finset.mem_singleton.2 (by omega)
    · exact absurd some (Nat.lt_irrefl 0)
  have small := Finset.card_le_card one
  rw [Finset.card_singleton] at small
  have size : ninode = 50 := rfl
  omega

theorem emptyView_enough : emptyView.blocks + 3 ≤ emptyView.room := by
  have blocks : emptyView.blocks = 0 := by
    rw [View.blocks, totalBlocks]
    refine Finset.sum_eq_zero fun i _ => ?_
    by_cases root : i = 1
    · have there : emptyView.node i = some ⟨tDir, 0, 0, 1, []⟩ := root ▸ rootLocked_node
      rw [there]
      rfl
    · have gone : emptyView.node i = none := emptyRoot_node root
      rw [gone]
      rfl
  rw [blocks]
  exact (by decide : 0 + 3 ≤ 150)

/-- A name for every number below 5000. -/
def twoChars (k : Nat) : Bytes := [BitVec.ofNat 8 (128 + k % 128), BitVec.ofNat 8 (128 + k / 128)]

theorem components_single (some : w ≠ []) (visible : ∀ c ∈ w, c ≠ slash ∧ c ≠ 0) (short : w.length ≤ dirsiz) :
    components w = [w] := by
  have split : elements (w ++ []) = w :: elements [] := elements_append some visible (.inl rfl)
  rw [List.append_nil] at split
  rw [components, split, List.map_cons, List.take_of_length_le short]
  rfl

theorem twoChars_visible (small : k < 5000) : ∀ c ∈ twoChars k, c ≠ slash ∧ c ≠ 0 := by
  have high : ∀ x, 128 ≤ x → x < 256 → BitVec.ofNat 8 x ≠ slash ∧ BitVec.ofNat 8 x ≠ 0 := by
    intro x low high
    have number : (BitVec.ofNat 8 x).toNat = x := by rw [BitVec.toNat_ofNat, Nat.mod_eq_of_lt high]
    refine ⟨fun wrong => ?_, fun wrong => ?_⟩
    · rw [wrong, show slash.toNat = 47 from rfl] at number
      omega
    · rw [wrong, show (0 : BitVec 8).toNat = 0 from rfl] at number
      omega
  intro c member
  rcases List.mem_cons.1 member with rfl | member
  · exact high _ (by omega) (by omega)
  · rw [List.mem_singleton] at member
    subst member
    exact high _ (by omega) (by omega)

theorem components_twoChars (small : k < 5000) : components (twoChars k) = [twoChars k] :=
  components_single (List.cons_ne_nil _ _) (twoChars_visible small) (by decide : 2 ≤ dirsiz)

theorem key_twoChars (small : k < 5000) : key (twoChars k) = twoChars k := by
  rw [key_of_visible fun c member => (twoChars_visible small c member).2]
  rfl

theorem twoChars_inj {j : Nat} (small : j < 5000) (small' : k < 5000) (same : twoChars j = twoChars k) : j = k := by
  obtain ⟨first, second⟩ := List.cons.inj same
  have first := congrArg BitVec.toNat first
  have second := congrArg BitVec.toNat (List.cons.inj second).1
  simp only [BitVec.toNat_ofNat] at first second
  omega

/-- The view in which inode 2 is the only file, and the root directory has `k + 1` names, those of
the file. -/
structure FilledRoot (k : Nat) (v : View) (m : Node) : Prop where
  procs : v.proc = emptyView.proc
  files : v.file = emptyView.file
  room : v.room = 150
  ninodes : v.ninodes = 200
  root : v.node 1 = some m
  dir : m.IsDir
  full : m.data.length = 16 * (k + 1)
  distinct : DistinctNames (entries m.data)
  live : ∀ de ∈ entries m.data, de.inum ≠ 0
  x : ∃ off, lookup m.data [0x78] = some (2, off)
  fresh : ∀ j, k ≤ j → j < 5000 → lookup m.data (twoChars j) = none
  file : ∃ n, v.node 2 = some n ∧ n.type = tDev ∧ n.data = []
  others : ∀ i, i ≠ 1 → i ≠ 2 → v.node i = none

namespace FilledRoot

variable {v : View} {m : Node} {k j : Nat} {s : Fs}

section

variable (filled : FilledRoot k v m)
include filled

theorem cwd : (v.proc 0).cwd = some 1 := by
  rw [filled.procs]
  exact opensFirst_cwd.2 ⟨rfl, rfl⟩

theorem newName (right : v.Consistent) (later : k ≤ j) (small : j < 5000) :
    v.NewName 0 (twoChars j) 1 m (twoChars j) where
  walked := by
    have start : startOf 1 (twoChars j) = 1 := if_neg (twoChars_visible small _ (.head _)).1
    have parent := (right.tree.namex filled.cwd (Option.isSome_iff_exists.2 ⟨m, filled.root⟩) (twoChars j)).2
    rw [parent, components_twoChars small, View.resolveParent_single, start, View.place, filled.root]
    simp only [if_pos filled.dir.type]
  place := filled.root
  absent := filled.fresh j later small

theorem old (right : v.Consistent) : v.namex 0 [0x78] false = .ok (some (2, [])) := by
  obtain ⟨off, found⟩ := filled.x
  have whole := (right.tree.namex filled.cwd (Option.isSome_iff_exists.2 ⟨m, filled.root⟩) [0x78]).1
  have split : components [0x78] = [[0x78]] := by decide
  have child : v.child 1 [0x78] = some 2 := by
    rw [View.child, filled.root]
    simp only [if_pos filled.dir.type, found, Option.map_some]
  rw [whole, split, show startOf 1 [0x78] = 1 from by decide, View.resolve_cons, child]
  rfl

theorem enough (small : k < 4480) : v.blocks + 3 ≤ v.room := by
  obtain ⟨n, there, -, empty⟩ := filled.file
  have blocks : v.blocks = m.blocks := by
    rw [View.blocks, totalBlocks, filled.ninodes, Finset.sum_eq_single_of_mem 1 (by decide), filled.root]
    · rfl
    · intro i _ other
      by_cases second : i = 2
      · rw [second, there, Option.map_some, Option.getD_some, Node.blocks, empty]
        rfl
      · rw [filled.others i other second]
        rfl
  have most : m.blocks ≤ blocksFor 140 := by
    rw [Node.blocks, filled.full]
    exact blocksFor_mono (by omega)
  have total : blocksFor 140 = 141 := rfl
  rw [blocks, filled.room]
  omega

theorem few : ¬v.Crowded 2 := by
  rintro ⟨S, large, used⟩
  refine emptyView_few ⟨S, large, fun i mem => ?_⟩
  have same : v.uses i = emptyView.uses i := by rw [View.uses, View.uses, filled.files, filled.procs]
  rw [← same]
  exact used i mem

end

/-- A directory without a free entry gets its new one at the end. -/
theorem freeOff_of_live (dir : m.IsDir) (live : ∀ de ∈ entries m.data, de.inum ≠ 0) :
    freeOff m.data = m.data.length := by
  have whole := dir.whole
  obtain ⟨x, place, start, free⟩ := freeOff_entry m.data whole
  rw [entries_length] at start
  have last : ¬x < m.data.length / 16 := by
    intro inside
    have here : (entries m.data)[x]? = some (direntAt m.data (16 * x)) := by rw [getElem?_entries, if_pos inside]
    exact live _ (List.mem_of_getElem? here) (free _ here)
  omega

theorem link {n : Node} (filled : FilledRoot k v m) (there : v.node 2 = some n) (small : k < 4480) :
    FilledRoot (k + 1) (v.enter 2 { n with nlink := n.nlink + 1 } 1 m (twoChars k)) (m.link (twoChars k) 2) := by
  obtain ⟨n', there', device, empty⟩ := filled.file
  cases there.symm.trans there'
  have little : k < 5000 := by omega
  obtain ⟨dir, distinct, lookups⟩ := filled.dir.link filled.distinct (filled.fresh k (Nat.le_refl k) little)
    (by decide : 0 < 2) (by decide)
  refine ⟨filled.procs, filled.files, filled.room, filled.ninodes, View.enter_node_place .., dir, ?_, distinct,
    fun de member => ?_, ?_, ?_,
    ⟨_, View.enter_node_new (by decide), device, empty⟩, fun i first second => ?_⟩
  · rw [Node.link, Node.write, overwrite_length (freeOff_le filled.dir.whole), freeOff_of_live filled.dir filled.live,
      Dirent.toBytes_length (strncpy_length ..), filled.full]
    omega
  · rcases filled.dir.mem_link member with member | number
    · exact filled.live de member
    · rw [number]
      decide
  · obtain ⟨off, found⟩ := filled.x
    refine ⟨off, ?_⟩
    rw [lookups, if_neg, found]
    intro same
    rw [key_twoChars little] at same
    have length : 1 = 2 := congrArg List.length same
    cases length
  · intro j later below
    rw [lookups, if_neg, filled.fresh j (by omega) below]
    intro same
    rw [key_twoChars little, key_twoChars below] at same
    have := twoChars_inj below little same
    omega
  · exact (View.enter_node_of_ne first second).trans (filled.others i first second)

theorem freeInode (filled : FilledRoot k v m) : v.freeInode.isSome := by
  rw [View.freeInode, List.find?_isSome, filled.ninodes]
  exact ⟨3, by decide, by rw [filled.others 3 (by decide) (by decide)]; rfl⟩

theorem alive (filled : FilledRoot k v m) (good : Good v 0 ∅ s) : (s.proc 0).Alive := by
  rw [ProcFiles.Alive, ← (good.proc 0).1, filled.procs]
  exact ⟨nofun, nofun⟩

/-- One more name. -/
theorem step (filled : FilledRoot k v m) (good : Good v 0 ∅ s) (right : v.Consistent) (small : k < 4479) :
    ∃ t v' m', NameStep s t ∧ Good v' 0 ∅ t ∧ v'.Consistent ∧ FilledRoot (k + 1) v' m' := by
  obtain ⟨n, there, device, -⟩ := filled.file
  have file : n.type ≠ tDir := by
    rw [device]
    decide
  have slot : m.HasSlot := .inr (by rw [filled.full]; omega)
  have ans := (filled.newName right (Nat.le_refl k) (by omega)).sysLink_eq good right (filled.old right) there file
  rw [if_pos slot] at ans
  obtain ⟨t, ended, good'⟩ := Good.ends_of_ok (good.sysLink (right.tree.walkable good.node_inside) filled.cwd)
    (View.not_lacks (filled.enough (by omega)) filled.few) ans
  exact ⟨t, _, _, .call 0 _ _ (filled.alive good) (.link [0x78] (twoChars k)) ended, good',
    good.sysLink_consistent right ans,
    filled.link there (by omega)⟩

end FilledRoot

theorem emptyView_freeInode : emptyView.freeInode = some 2 := by decide +kernel

theorem emptyView_newName (some : w ≠ []) (visible : ∀ c ∈ w, c ≠ slash ∧ c ≠ 0) (short : w.length ≤ dirsiz) :
    emptyView.NewName 0 w 1 ⟨tDir, 0, 0, 1, []⟩ w where
  walked := by
    have start : startOf 1 w = 1 := by
      cases w with
      | nil => exact absurd rfl some
      | cons c w => exact if_neg (visible c (.head _)).1
    have cwd : (emptyView.proc 0).cwd = Option.some 1 := opensFirst_cwd.2 ⟨rfl, rfl⟩
    have root : emptyView.node 1 = Option.some ⟨tDir, 0, 0, 1, []⟩ := rootLocked_node
    rw [(emptyView_consistent.tree.namex cwd (Option.isSome_iff_exists.2 ⟨_, root⟩) w).2,
      components_single some visible short,
      View.resolveParent_single, start, View.place, root]
    rfl
  place := rootLocked_node
  absent := lookup_nil

/-- The name "x" is made for a new inode. -/
theorem filled_first : ∃ v' m, emptyView.sysCreate 0 [0x78] tDev 0 0 = .ok (0, v') ∧ FilledRoot 0 v' m := by
  have good := emptyFs_good
  have right := emptyView_consistent
  have new : emptyView.NewName 0 [0x78] 1 ⟨tDir, 0, 0, 1, []⟩ [0x78] :=
    emptyView_newName (by decide) (by decide) (by decide)
  obtain ⟨kept, -⟩ := good.parent_found right new.walked
  obtain ⟨v', made, -⟩ := (new.create tDev 0 0 good right emptyView_freeInode).2 (.inr (by decide))
  rcases View.create_ok made with ⟨-, file, -⟩ | ⟨i, d, m, name, found, walked, place, absent, free, -, view⟩
  · exact absurd (file 2 rfl).1 (by decide)
  · cases found
    cases new.walked.symm.trans walked
    cases new.place.symm.trans place
    have same : v' = emptyView.enter 2 (View.newNode 2 1 tDev 0 0) 1 ⟨tDir, 0, 0, 1, []⟩ [0x78] :=
      view.trans (Good.drop_place 1 kept place id)
    have root : (⟨tDir, 0, 0, 1, []⟩ : Node).IsDir := ⟨rfl, rfl⟩
    obtain ⟨dir, distinct, lookups⟩ := root.link distinct_nil absent (by decide : 0 < 2) (by decide)
    refine ⟨v', Node.link ⟨tDir, 0, 0, 1, []⟩ [0x78] 2, by rw [View.sysCreate, made], ?_⟩
    rw [same]
    refine ⟨rfl, rfl, rfl, rfl, View.enter_node_place .., dir, ?_, distinct, fun de member => ?_,
      ⟨0, ?_⟩, fun j _ below => ?_,
      ⟨_, View.enter_node_new (by decide), rfl, rfl⟩, fun i first second => ?_⟩
    · rw [link_empty rfl, Dirent.toBytes_length (strncpy_length ..)]
    · rw [link_empty rfl, entries_toBytes _ (strncpy_length ..), List.mem_singleton] at member
      rw [member]
      decide
    · rw [lookups]
      rfl
    · rw [lookups, if_neg, lookup_nil]
      intro same
      rw [key_twoChars below] at same
      have length : 2 = 1 := congrArg List.length same
      cases length
    · exact (View.enter_node_of_ne first second).trans (emptyRoot_node first)

theorem filled_start : ∃ s v m, NameStep emptyFs s ∧ Good v 0 ∅ s ∧ v.Consistent ∧ FilledRoot 0 v m := by
  have good := emptyFs_good
  have right := emptyView_consistent
  have cwd : (emptyView.proc 0).cwd = some 1 := opensFirst_cwd.2 ⟨rfl, rfl⟩
  obtain ⟨v', m, ans, filled⟩ := filled_first
  obtain ⟨t, ended, good'⟩ :=
    Good.ends_of_ok (good.sysCreate (right.tree.walkable good.node_inside) cwd (by decide : tDev ≠ 0))
    (View.not_lacks emptyView_enough emptyView_few) ans
  exact ⟨t, v', m, .call 0 _ _ ⟨nofun, nofun⟩ (.mknod [0x78] 0 0) ended, good',
    good.sysCreate_consistent right ans, filled⟩

theorem filled_run (small : k ≤ 4479) :
    ∃ s v m, ReflTransGen NameStep emptyFs s ∧ Good v 0 ∅ s ∧ v.Consistent ∧ FilledRoot k v m := by
  induction k with
  | zero =>
    obtain ⟨s, v, m, step, rest⟩ := filled_start
    exact ⟨s, v, m, .single step, rest⟩
  | succ k ih =>
    obtain ⟨s, v, m, run, good, right, filled⟩ := ih (by omega)
    obtain ⟨t, v', m', step, rest⟩ := filled.step good right small
    exact ⟨t, v', m', run.tail step, rest⟩

/-- A new directory is made in an empty root directory. -/
theorem new_name_settles_in_empty_root : Settles (sysMkdir 0 (some [0x61])) emptyFs := by
  have before := emptyFs_good.shows emptyView_consistent
  have new : emptyView.NewName 0 [0x61] 1 ⟨tDir, 0, 0, 1, []⟩ [0x61] :=
    emptyView_newName (by decide) (by decide) (by decide)
  have calls := (new_name_settles_iff before .refl).2 _ before 0 [0x61] 1 ⟨tDir, 0, 0, 1, []⟩ [0x61]
    ⟨nofun, nofun⟩ (new.withRoom _)
    (emptyFs_good.room_le emptyView_enough) (mt (View.crowded_withRoom ..).1 emptyView_few)
    (Option.isSome_iff_exists.2 ⟨2, (View.freeInode_withRoom ..).trans emptyView_freeInode⟩)
  exact calls.2.1.2 (Or.inr (by decide))

/-- After 4480 names for one file in the root directory, which is then as large as a file can be, with free
blocks and inodes `sys_link` of one more name panics. -/
theorem link_full_directory_panics : ∃ s₀ v₀ s v m, s₀.Shows v₀ ∧ ReflTransGen NameStep s₀ s ∧
    s.Shows v ∧ (s.proc 0).Alive ∧
    v.NewName 0 (twoChars 4479) 1 m (twoChars 4479) ∧ v.blocks + 3 ≤ v.room ∧ ¬v.Crowded 2 ∧ v.freeInode.isSome ∧
    sysLink 0 (some [0x78]) (some (twoChars 4479)) s = .error (.panic "dirlink") := by
  obtain ⟨s, v, m, run, good, right, filled⟩ := filled_run (Nat.le_refl 4479)
  have new := filled.newName right (Nat.le_refl 4479) (by decide)
  have enough := filled.enough (by decide)
  obtain ⟨n, there, device, -⟩ := filled.file
  have file : n.type ≠ tDir := by
    rw [device]
    decide
  have full : ¬m.HasSlot := by
    have length := filled.full
    rintro (⟨de, member, zero⟩ | less)
    · exact filled.live de member zero
    · omega
  have ans := new.sysLink_eq good right (filled.old right) there file
  rw [if_neg full] at ans
  refine ⟨emptyFs, _, s, _, m, emptyFs_good.shows emptyView_consistent, run, good.shows right,
    filled.alive good, new.withRoom _,
    good.room_le enough, filled.few, ?_, ?_⟩
  · exact filled.freeInode
  · exact Good.stops_of_error (good.sysLink (right.tree.walkable good.node_inside) filled.cwd)
      (View.not_lacks enough filled.few) ans

end Filling

end MiniOS
