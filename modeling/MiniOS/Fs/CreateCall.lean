import MiniOS.Fs.Entries
import MiniOS.Fs.NameCalls

namespace MiniOS

open Lib

section Dots

variable {n : Node} {i d : Nat} {name : Bytes}

theorem link_empty (empty : n.data = []) : n.link name i =
    { n with data := Dirent.toBytes ⟨BitVec.ofNat 16 i, strncpy name dirsiz⟩ } := by
  rw [Node.link, empty, show freeOff [] = 0 from rfl, Node.write, empty, overwrite, List.take_nil,
    List.nil_append, List.drop_nil,
    List.append_nil]

theorem lookup_nil : lookup [] name = none := by
  simp [lookup_eq_none, entries]

theorem entries_toBytes (de : Dirent) (name : de.name.length = 14) : entries de.toBytes = [de] := by
  have written : entries (overwrite [] (16 * 0) de.toBytes) = putEntry (entries []) 0 de :=
    entries_write name (Nat.zero_le _)
  rw [overwrite, List.take_nil, List.nil_append, List.drop_nil, List.append_nil] at written
  exact written

theorem overwrite_end {data src : Bytes} {off : Nat} (last : data.length = off) :
    overwrite data off src = data ++ src := by
  rw [overwrite, List.take_of_length_le (by omega), List.drop_eq_nil_of_le (by omega), List.append_nil]

theorem lookup_dot_dotdot : lookup (Dirent.toBytes ⟨BitVec.ofNat 16 i, strncpy dot dirsiz⟩) dotdot = none := by
  have length : (Dirent.toBytes ⟨BitVec.ofNat 16 i, strncpy dot dirsiz⟩).length = 16 :=
    Dirent.toBytes_length (strncpy_length ..)
  rw [lookup_eq_none (by rw [length]), entries_toBytes _ (strncpy_length ..)]
  intro de mem _
  rw [List.mem_singleton.1 mem]
  exact (by decide : namecmp dotdot (strncpy dot dirsiz) = false)

/-- The two entries of a new directory. -/
theorem link_dots (empty : n.data = []) (real : BitVec.ofNat 16 i ≠ 0) :
    (n.link dot i).link dotdot d = { n with data := View.dots i d } := by
  have length : (Dirent.toBytes ⟨BitVec.ofNat 16 i, strncpy dot dirsiz⟩).length = 16 :=
    Dirent.toBytes_length (strncpy_length ..)
  have place : freeOff (Dirent.toBytes ⟨BitVec.ofNat 16 i, strncpy dot dirsiz⟩) = 16 := by
    obtain ⟨x, same, below, free⟩ := freeOff_entry (Dirent.toBytes ⟨BitVec.ofNat 16 i, strncpy dot dirsiz⟩)
      (by rw [length])
    rw [entries_toBytes _ (strncpy_length ..)] at below free
    rcases Nat.le_one_iff_eq_zero_or_eq_one.1 below with rfl | rfl
    · exact absurd (free _ rfl) real
    · exact same
  rw [link_empty empty, Node.link, place, Node.write, overwrite_end length]
  rfl

theorem dots_length : (View.dots i d).length = 32 := by
  rw [View.dots, List.length_append, Dirent.toBytes_length (strncpy_length ..),
    Dirent.toBytes_length (strncpy_length ..)]

end Dots

namespace View

variable {v : View} {i j : Nat}

theorem setNode_comm (other : i ≠ j) (n m : Option Node) :
    (v.setNode i n).setNode j m = (v.setNode j m).setNode i n := by
  simp only [setNode, Function.update_comm other]

theorem newNode_blocks (i d : Nat) (type major minor : BitVec 16) : (newNode i d type major minor).blocks ≤ 1 := by
  rw [newNode, Node.blocks]
  dsimp only
  split
  · rw [dots_length]
    decide
  · decide

theorem freeInode_eq_some (found : v.freeInode = some i) : v.node i = none ∧ 0 < i ∧ i < v.ninodes := by
  have mem := List.mem_range'_1.1 (List.mem_of_find?_eq_some found)
  have free := List.find?_some found
  exact ⟨of_decide_eq_true free, by omega, by omega⟩

end View

namespace Good

variable {v : View} {s : Fs} {k l : Fin ninode} {i d : Nat} {m : Node} {path name : Bytes} {p : Fin nproc}
  {type major minor : BitVec 16} {X : Multiset Handle} {L : Finset Nat} {c : Nat}

/-- Inode numbers fit in the entries of directories. -/
theorem short (good : Good v X L s) (inside : i < v.ninodes) : i < 2 ^ 16 := by
  have laid := good.disk.image.laid
  have inodes := laid.inodes
  have data := laid.data
  have disk : s.sb.size ≤ 1000 := laid.disk
  have map := s.sb.bmapstart_lt
  have ninodes := good.ninodes
  omega

theorem real_number (good : Good v X L s) (inside : i < v.ninodes) (real : 0 < i) :
    BitVec.ofNat 16 i ≠ 0 := by
  have short := good.short inside
  intro zero
  have number : i % 2 ^ 16 = 0 := by
    rw [← BitVec.toNat_ofNat, zero]
    rfl
  rw [Nat.mod_eq_of_lt short] at number
  omega

/-- A new directory gets the entries "." and "..". -/
theorem createDots (good : Good v (⟨l, i, true⟩ ::ₘ {⟨k, d, true⟩}) (insert i (insert d ∅)) s) (apart : i ≠ d)
    (parent : v.node d = some m) (there : v.node i = some ⟨type, major, minor, 1, []⟩)
    (real : BitVec.ofNat 16 i ≠ 0) :
    wp (createDots k l type) s (fun _ t =>
        Good ((v.setNode i (some (View.newNode i d type major minor))).setNode d
          (some { m with nlink := if type = tDir then m.nlink + 1 else m.nlink }))
          (⟨l, i, true⟩ ::ₘ {⟨k, d, true⟩}) (insert i (insert d ∅)) t)
      fun e => e = .panic "balloc: out of blocks" ∧ v.room < v.blocks + 1 := by
  have mine : (⟨l, i, true⟩ : Handle) ∈ (⟨l, i, true⟩ ::ₘ {⟨k, d, true⟩} : Multiset Handle) :=
    Multiset.mem_cons_self ..
  have mem : (⟨k, d, true⟩ : Handle) ∈ (⟨l, i, true⟩ ::ₘ {⟨k, d, true⟩} : Multiset Handle) := by simp
  have number : (s.icache l).inum = i := (good.handle _ mine).1.2
  have number' : (s.icache k).inum = d := (good.handle _ mem).1.2
  have inside : i < v.ninodes := good.ninodes ▸ good.inside (good.handle _ mine).1
  have bound : d < v.ninodes := good.ninodes ▸ good.inside (good.handle _ mem).1
  refine wp_inode k (wp_inode l (wp_ite (fun dir => ?_) fun file => ?_))
  · subst dir
    rw [number, number']
    refine wp_seq_pair (good.update mem parent id id (· + 1)) fun _ t good => ?_
    have good : Good (v.setNode d (some { m with nlink := m.nlink + 1 })) (⟨l, i, true⟩ ::ₘ {⟨k, d, true⟩})
      (insert i (insert d ∅)) t := good
    have blocks := View.blocks_setNode bound parent { m with nlink := m.nlink + 1 }
    have now : (v.setNode d (some { m with nlink := m.nlink + 1 })).node i = some ⟨tDir, major, minor, 1, []⟩ :=
      (View.setNode_node_of_ne _ apart).trans there
    have room : ∀ n : Node, n.blocks = 1 →
        ((v.setNode d (some { m with nlink := m.nlink + 1 })).setNode i (some n)).blocks = v.blocks + 1 := by
      intro n one
      have total := View.blocks_setNode (v := v.setNode d (some { m with nlink := m.nlink + 1 })) inside now n
      have zero : (⟨tDir, major, minor, 1, []⟩ : Node).blocks = 0 := by simp [Node.blocks, blocksFor]
      have same : ({ m with nlink := m.nlink + 1 } : Node).blocks = m.blocks := rfl
      omega
    have one : ((⟨tDir, major, minor, 1, []⟩ : Node).link dot i).blocks = 1 := by
      rw [link_empty rfl, Node.blocks, Dirent.toBytes_length (strncpy_length ..)]
      rfl
    have two : (((⟨tDir, major, minor, 1, []⟩ : Node).link dot i).link dotdot d).blocks = 1 := by
      rw [link_dots rfl real, Node.blocks, dots_length]
      rfl
    refine wp_seq (wp_mono (good.dirlink_new mine now ⟨rfl, rfl⟩ lookup_nil) (fun _ _ => id) fun e stopped => ?_) ?_
    · rcases stopped with ⟨rfl, short⟩ | ⟨-, large⟩
      · refine ⟨rfl, ?_⟩
        rw [← room _ one]
        exact short
      · have start : freeOff (⟨tDir, major, minor, 1, []⟩ : Node).data ≤ 0 := freeOff_le rfl
        omega
    · rintro _ t ⟨rfl, -, good⟩
      refine wp_guard (fun neg => absurd neg (by decide)) fun _ => ?_
      have then_ : ((v.setNode d (some { m with nlink := m.nlink + 1 })).setNode i
          (some ((⟨tDir, major, minor, 1, []⟩ : Node).link dot i))).node i =
            some ((⟨tDir, major, minor, 1, []⟩ : Node).link dot i) :=
        View.setNode_node_self ..
      have dir : ((⟨tDir, major, minor, 1, []⟩ : Node).link dot i).IsDir := by
        rw [link_empty rfl]
        exact ⟨rfl, by rw [Dirent.toBytes_length (strncpy_length ..)]⟩
      have absent : lookup ((⟨tDir, major, minor, 1, []⟩ : Node).link dot i).data dotdot = none := by
        rw [link_empty rfl]
        exact lookup_dot_dotdot
      refine wp_seq (wp_mono (good.dirlink_new mine then_ dir absent) (fun _ _ => id) fun e stopped => ?_) ?_
      · rw [View.setNode_setNode, room _ two] at stopped
        rcases stopped with ⟨rfl, short⟩ | ⟨-, large⟩
        · exact ⟨rfl, short⟩
        · have small := freeOff_le dir.whole
          rw [link_empty rfl, Dirent.toBytes_length (strncpy_length ..)] at small
          rw [link_empty rfl] at large
          omega
      · rintro _ t ⟨rfl, -, good⟩
        refine wp_panicIf (fun neg => absurd neg (by decide)) fun _ => ?_
        rw [View.setNode_setNode, link_dots rfl real, View.setNode_comm apart.symm] at good
        exact good
  · rw [View.newNode, if_neg file, if_neg file, ← there, View.setNode_self, ← parent, View.setNode_self]
    exact good

/-- The view in which a new inode `i` is entered in the directory `d`. -/
def entered (v : View) (i d : Nat) (m : Node) (name : Bytes) (type major minor : BitVec 16) : Except Stop View :=
  (v.setNode i (some (View.newNode i d type major minor))).addEntry d
  { m with nlink := if type = tDir then m.nlink + 1 else m.nlink } name i

theorem createIn (good : Good v {⟨k, d, true⟩} (insert d ∅) s) (parent : v.node d = some m) (dir : m.IsDir)
    (absent : lookup m.data name = none) (real : type ≠ 0) : wp (createIn k name type major minor) s
      (fun l t => ∃ i v', v.freeInode = some i ∧ entered v i d m name type major minor = .ok v' ∧
        v'.node i = some (View.newNode i d type major minor) ∧
        Good (v'.drop d) {⟨l, i, true⟩} (insert i ∅) t)
      fun e => e = .panic "ialloc: no inodes" ∧ v.freeInode = none ∨
        (∃ i, v.freeInode = some i ∧ entered v i d m name type major minor = .error e) ∨ v.Lacks e := by
  have caches := good.mine
  have device : (s.icache k).dev = rootdev := ((good.entry k).number caches.1).1
  refine wp_inode k ?_
  rw [device]
  refine wp_seq (wp_mono (good.ialloc real) (fun _ _ => id) fun e stopped => ?_) fun l t after => ?_
  · refine stopped.imp id fun full => .inr ?_
    rw [full.1]
    exact View.lacks_iget full.2 (by simp)
  obtain ⟨i, free, good⟩ := after
  obtain ⟨gone, positive, inside⟩ := View.freeInode_eq_some free
  have apart : i ≠ d := by
    rintro rfl
    cases gone.symm.trans parent
  have there : (v.setNode i (some ⟨type, 0, 0, 0, []⟩)).node i = some ⟨type, 0, 0, 0, []⟩ := View.setNode_node_self ..
  refine good.ilock_seq (by simpa using apart) (fun none => absurd (there.symm.trans none) nofun)
    fun t n here good => ?_
  cases there.symm.trans here
  refine wp_seq_pair (good.update (Multiset.mem_cons_self ..) there (fun _ => major) (fun _ => minor) fun _ => 1)
    fun _ t good => ?_
  rw [View.setNode_setNode] at good
  have fresh : (v.setNode i (some ⟨type, major, minor, 1, []⟩)).node i = some ⟨type, major, minor, 1, []⟩ :=
    View.setNode_node_self ..
  have parent' : (v.setNode i (some ⟨type, major, minor, 1, []⟩)).node d = some m :=
    (View.setNode_node_of_ne _ apart.symm).trans parent
  have empty : (⟨type, major, minor, 1, []⟩ : Node).blocks = 0 := by simp [Node.blocks, blocksFor]
  have blocks := View.blocks_new inside gone ⟨type, major, minor, 1, []⟩
  refine wp_seq (wp_mono (good.createDots apart parent' fresh (good.real_number inside positive))
    (fun _ _ => id) fun e stopped => ?_)
    fun _ t good => ?_
  · have room : v.room < (v.setNode i (some ⟨type, major, minor, 1, []⟩)).blocks + 1 := stopped.2
    exact .inr (.inr (.inl ⟨stopped.1, by omega⟩))
  rw [View.setNode_setNode] at good
  have mem : (⟨k, d, true⟩ : Handle) ∈ (⟨l, i, true⟩ ::ₘ {⟨k, d, true⟩} : Multiset Handle) := by simp
  have number : (t.icache l).inum = i := good.mine.2
  have now : ((v.setNode i (some (View.newNode i d type major minor))).setNode d
      (some { m with nlink := if type = tDir then m.nlink + 1 else m.nlink })).node d =
        some { m with nlink := if type = tDir then m.nlink + 1 else m.nlink } := View.setNode_node_self ..
  refine wp_inode l ?_
  rw [number]
  refine wp_seq (wp_mono (good.dirlink_new mem now ⟨dir.type, dir.whole⟩ absent) (fun _ _ => id)
    fun e stopped => ?_) ?_
  · rcases stopped with ⟨rfl, short⟩ | ⟨rfl, large⟩
    · have one := View.newNode_blocks i d type major minor
      have before := View.blocks_new inside gone (View.newNode i d type major minor)
      have held : (v.setNode i (some (View.newNode i d type major minor))).node d = some m :=
        (View.setNode_node_of_ne _ apart.symm).trans parent
      have bound : d < v.ninodes := good.ninodes ▸ good.inside (good.handle _ mem).1
      have total := View.blocks_setNode (v := v.setNode i (some (View.newNode i d type major minor))) bound held
        ({ m with nlink := if type = tDir then m.nlink + 1 else m.nlink }.link name i)
      have more := View.link_blocks (n := { m with nlink := if type = tDir then m.nlink + 1 else m.nlink })
        ⟨dir.type, dir.whole⟩ name i
      have same : ({ m with nlink := if type = tDir then m.nlink + 1 else m.nlink } : Node).blocks = m.blocks := rfl
      rw [View.setNode_setNode] at short
      have room : v.room < ((v.setNode i (some (View.newNode i d type major minor))).setNode d
        (some ({ m with nlink := if type = tDir then m.nlink + 1 else m.nlink }.link name i))).blocks := short
      exact .inr (.inr (.inl ⟨rfl, by omega⟩))
    · exact .inr (.inl ⟨i, free, by rw [entered, View.addEntry, if_pos large]⟩)
  · rintro _ t ⟨rfl, small, good⟩
    rw [View.setNode_setNode] at good
    refine wp_guard (fun neg => absurd neg (by decide)) fun _ => ?_
    rw [Finset.insert_comm] at good
    refine wp_seq (good.swap.iunlockput_drop (by simpa using apart.symm) (by simpa using apart.symm))
      fun _ t good => ?_
    refine ⟨i, _, free, by rw [entered, View.addEntry, if_neg (by omega)], ?_, good⟩
    exact (View.setNode_node_of_ne _ apart).trans (View.setNode_node_self ..)

/-- `create` returns its inode locked, and the inode stays when the reference is dropped. -/
def Created (ans : Except Stop (Option Nat × View)) : Option (Fin ninode) → Fs → Prop
  | none, t => ∃ v', ans = .ok (none, v') ∧ Good v' 0 ∅ t
  | some l, t => ∃ i v', ans = .ok (some i, v') ∧ v'.Keeps 0 i ∧ Good v' {⟨l, i, true⟩} (insert i ∅) t

theorem create (good : Good v 0 ∅ s) (walkable : v.Walkable 0) (here : (v.proc p).cwd = some c) (real : type ≠ 0) :
    wp (create p path type major minor) s (Created (v.create p path type major minor))
    (Stops v (v.create p path type major minor)) := by
  refine good.nameiparent_seq walkable here (fun e stopped => ?_) (fun full => .inr (View.lacks_iget full (by simp)))
    (fun t none good => ⟨v, ?_, good⟩) fun t d m k b name walked there dir kept good => ?_
  · exact .inl (by rw [View.create, stopped])
  · rw [View.create, none]
  · rw [View.create, walked]
    simp only
    refine good.ilock_seq (Finset.notMem_empty d) (fun gone => absurd (there.symm.trans gone) nofun)
      fun t m' there' good => ?_
    cases there.symm.trans there'
    rw [View.locked_some there]
    refine wp_seq (wp_mono (good.dirlookup (Multiset.mem_cons_self ..) there dir name fun j off found =>
      walkable.range there dir.type found)
      (fun _ _ => id) fun e full => .inr ?_) ?_
    · rw [full.2.1]
      exact View.lacks_iget full.2.2 (by simp)
    · cases look : lookup m.data name with
      | some found =>
        obtain ⟨j, off⟩ := found
        rintro _ t ⟨l, rfl, good⟩
        have kept' : v.Keeps 0 j := walkable.next kept there dir.type look
        refine wp_seq (good.swap.iunlockput_kept (Finset.notMem_empty d) (kept.cons _)) fun _ t good => ?_
        refine good.ilock_seq (Finset.notMem_empty j) (fun gone => .inl (View.locked_none gone))
          fun t n theirs good => wp_inode l ?_
        rw [good.type_eq (Multiset.mem_cons_self ..) theirs]
        simp only [View.locked_some theirs]
        refine wp_ite (fun same => ?_) fun other => ?_
        · exact ⟨j, v, by rw [if_pos same], kept', good⟩
        · exact wp_seq (good.iunlockput_kept (Finset.notMem_empty j) kept') fun _ t good =>
            ⟨v, by rw [if_neg other], good⟩
      | none =>
        rintro _ t ⟨rfl, rfl⟩
        refine wp_seq (wp_mono (good.createIn there dir look real) (fun _ _ => id) fun e stopped => ?_)
          fun l t after => ?_
        · rcases stopped with ⟨rfl, none⟩ | ⟨i, free, stopped⟩ | lacks
          · exact .inl (by simp only [none])
          · rw [entered] at stopped
            exact .inl (by simp only [free, stopped])
          · exact .inr lacks
        · obtain ⟨i, v', free, added, new, good⟩ := after
          rw [entered] at added
          have apart : i ≠ d := by
            rintro rfl
            cases (View.freeInode_eq_some free).1.symm.trans there
          refine ⟨i, v'.drop d, by simp only [free, added], ?_, good⟩
          rintro ⟨n, theirs, dead⟩
          rw [View.drop_node_of_ne apart, new] at theirs
          cases theirs
          exact absurd dead (by decide : (1 : BitVec 16) ≠ 0)

theorem sysCreate (good : Good v 0 ∅ s) (walkable : v.Walkable 0) (here : (v.proc p).cwd = some c) (real : type ≠ 0) :
    wp (sysCreate p path type major minor) s (Ends (v.sysCreate p path type major minor))
    (Stops v (v.sysCreate p path type major minor)) := by
  refine wp_seq (wp_mono (good.create walkable here real) (fun _ _ => id) fun e stopped =>
    stopped.imp (fun stopped => ?_) id)
    fun r t after => ?_
  · rw [View.sysCreate, stopped]
  · match r, after with
    | none, ⟨v', ans, good⟩ => exact ⟨v', by rw [View.sysCreate, ans], good⟩
    | some l, ⟨i, v', ans, kept, good⟩ =>
      exact wp_seq (good.iunlockput_kept (Finset.notMem_empty i) kept) fun _ t good =>
        ⟨v', by rw [View.sysCreate, ans], good⟩

end Good

end MiniOS
