import MiniOS.Fs.Calls

namespace MiniOS

open Lib

namespace View

variable {v : View} {i d : Nat} {n m : Node} {name : Bytes} {α : Type} {f : Node → Except Stop α}

/-- The disk or the inode cache may be too small for a call. -/
def Lacks (v : View) (e : Stop) : Prop :=
  e = .panic "balloc: out of blocks" ∧ v.room < v.blocks + 3 ∨ e = .panic "iget: no inodes" ∧ v.Crowded 2

theorem locked_some (there : v.node i = some n) : v.locked i f = f n := by
  rw [locked, there]

theorem locked_none (gone : v.node i = none) : v.locked i f = .error (.panic "ilock: no type") := by
  rw [locked, gone]

theorem lacks_iget {k : Nat} (crowded : v.Crowded k) (few : k ≤ 2) : v.Lacks (.panic "iget: no inodes") :=
  .inr ⟨rfl, crowded.mono few⟩

theorem blocks_setNode (inside : i < v.ninodes) (there : v.node i = some n) (m : Node) :
    (v.setNode i (some m)).blocks + n.blocks = v.blocks + m.blocks := by
  have total := totalBlocks_update v.ninodes v.node inside (some m)
  rwa [there] at total

theorem blocks_new (inside : i < v.ninodes) (free : v.node i = none) (m : Node) :
    (v.setNode i (some m)).blocks = v.blocks + m.blocks := by
  have total := totalBlocks_update v.ninodes v.node inside (some m)
  rwa [free] at total

/-- An entry takes one block and perhaps the indirect block. -/
theorem link_blocks (dir : n.IsDir) (name : Bytes) (i : Nat) : (n.link name i).blocks ≤ n.blocks + 2 := by
  have start := freeOff_le dir.whole
  rw [Node.link, Node.write_blocks start, Dirent.toBytes_length (strncpy_length ..), Node.blocks]
  simp only [blocksFor]
  split <;> split <;> omega

theorem write_dirent_blocks {off : Nat} {de : Dirent} (name : de.name.length = 14)
    (inside : off + 16 ≤ n.data.length) :
    (n.write off de.toBytes).blocks = n.blocks := by
  rw [Node.write_blocks (by omega), Dirent.toBytes_length name, Node.blocks, Nat.max_eq_left (by omega)]

theorem Walkable.bump {k : Fin ninode} {b : Bool} (walkable : v.Walkable 0) (there : v.node i = some n)
    (file : n.type ≠ tDir) (nlink : BitVec 16) : (v.setNode i (some { n with nlink := nlink })).Walkable
    {⟨k, i, b⟩} := by
  have old : ∀ {j m}, (v.setNode i (some { n with nlink := nlink })).node j = some m → m.type = tDir →
      v.node j = some m := by
    intro j m here dir
    by_cases same : j = i
    · subst same
      rw [setNode_node_self] at here
      cases here
      exact absurd dir file
    · rwa [setNode_node_of_ne _ same] at here
  have keeps : ∀ {j}, v.Keeps 0 j → (v.setNode i (some { n with nlink := nlink })).Keeps {⟨k, i, b⟩} j := by
    intro j kept dead
    by_cases same : j = i
    · subst same
      exact .inr (Multiset.mem_singleton_self _)
    · rcases kept ((setNode_dead_of_ne same).1 dead) with used | mem
      · exact .inl used
      · exact absurd mem (Multiset.notMem_zero _)
  exact ⟨walkable.root, keeps walkable.start, fun here dir => walkable.whole (old here dir) dir,
    fun here dir => walkable.range (old here dir) dir, fun here dir found =>
    (walkable.kept (old here dir) dir found).imp id keeps⟩

theorem drop_of_keeps (kept : v.Keeps 0 i) : v.drop i = v :=
  if_neg fun ⟨dead, unused⟩ => (kept dead).elim (fun used => Nat.pos_iff_ne_zero.1 used unused)
  (Multiset.notMem_zero _)

theorem drop_node_of_ne {j : Nat} (other : j ≠ i) : (v.drop i).node j = v.node j := by
  rw [drop]
  split
  · exact setNode_node_of_ne _ other
  · rfl

end View

namespace Good

variable {v : View} {X : Multiset Handle} {L : Finset Nat} {s : Fs} {k : Fin ninode} {i : Nat} {n : Node} {b : Bool}
  {path name : Bytes} {p : Fin nproc} {α β : Type} {post : α → Fs → Prop} {err : Stop → Prop}
  {c d : Nat} {l : Fin ninode} {m : Node}

/-- The state has a view in which the call ends with the value. -/
def Ends (ans : Except Stop (β × View)) (r : β) (t : Fs) : Prop := ∃ v', ans = .ok (r, v') ∧ Good v' 0 ∅ t

/-- The call stops in the view, or it lacks room. -/
def Stops (v : View) (ans : Except Stop (β × View)) (e : Stop) : Prop := ans = .error e ∨ v.Lacks e

theorem namex_wp {post : Option (Fin ninode × Bytes) → Fs → Prop} {parent : Bool} (good : Good v X ∅ s)
    (walkable : v.Walkable X) (here : (v.proc p).cwd = some c) (stops : ∀ e, v.namex p path parent = .error e → err e)
    (full : v.Crowded (X.card + 1) → err (.panic "iget: no inodes"))
    (absent : ∀ t, v.namex p path parent = .ok none → Good v X ∅ t → post none t)
    (found : ∀ t i l b name, v.namex p path parent = .ok (some (i, name)) → v.Keeps X i →
      (parent = true → ∃ m, v.node i = some m ∧ m.IsDir) → Good v (⟨l, i, b⟩ ::ₘ X) ∅ t → post (some (l, name)) t) :
    wp (MiniOS.namex p path parent) s post err := by
  refine wp_mono (good.namex walkable here) (fun r t ⟨answer, walked, after⟩ => ?_) fun e stopped => ?_
  · cases answer with
    | none =>
      cases r with
      | none => exact absent t walked after
      | some _ => exact after.elim
    | some answer =>
      cases r with
      | none => exact after.elim
      | some r =>
        obtain ⟨i, name⟩ := answer
        obtain ⟨l, name'⟩ := r
        obtain ⟨rfl, b, good⟩ := after
        obtain ⟨kept, isDir⟩ := View.namex_found walkable walked
        refine found t i l b _ walked kept (fun last => ?_) good
        obtain ⟨m, there, dir⟩ := isDir last
        exact ⟨m, there, walkable.isDir there dir⟩
  · rcases stopped with stopped | ⟨rfl, crowded⟩
    · exact stops e stopped
    · exact full crowded

theorem nameiparent_seq {f : Option (Fin ninode × Bytes) → FsM α} (good : Good v X ∅ s) (walkable : v.Walkable X)
    (here : (v.proc p).cwd = some c) (stops : ∀ e, v.namex p path true = .error e → err e)
    (full : v.Crowded (X.card + 1) → err (.panic "iget: no inodes"))
    (absent : ∀ t, v.namex p path true = .ok none → Good v X ∅ t → wp (f none) t post err)
    (found : ∀ t d m l b name, v.namex p path true = .ok (some (d, name)) → v.node d = some m → m.IsDir →
      v.Keeps X d → Good v (⟨l, d, b⟩ ::ₘ X) ∅ t → wp (f (some (l, name))) t post err) :
    wp (nameiparent p path >>= f) s post err := by
  rw [wp_bind]
  refine good.namex_wp walkable here stops full absent fun t d l b name walked kept isDir good => ?_
  obtain ⟨m, there, dir⟩ := isDir rfl
  exact found t d m l b name walked there dir kept good

theorem namei_seq {f : Option (Fin ninode) → FsM α} (good : Good v X ∅ s) (walkable : v.Walkable X)
    (here : (v.proc p).cwd = some c) (stops : ∀ e, v.namex p path false = .error e → err e)
    (full : v.Crowded (X.card + 1) → err (.panic "iget: no inodes"))
    (absent : ∀ t, v.namex p path false = .ok none → Good v X ∅ t → wp (f none) t post err)
    (found : ∀ t i l b name, v.namex p path false = .ok (some (i, name)) → v.Keeps X i →
      Good v (⟨l, i, b⟩ ::ₘ X) ∅ t → wp (f (some l)) t post err) : wp (namei p path >>= f) s post err := by
  rw [wp_bind, MiniOS.namei, wp_bind]
  exact good.namex_wp walkable here stops full absent fun t i l b name walked kept _ good =>
    found t i l b name walked kept good

theorem ilock_seq {f : Unit → FsM α} (good : Good v (⟨k, i, b⟩ ::ₘ X) L s) (free : i ∉ L)
    (gone : v.node i = none → err (.panic "ilock: no type"))
    (rest : ∀ t n, v.node i = some n → Good v (⟨k, i, true⟩ ::ₘ X) (insert i L) t → wp (f ()) t post err) :
    wp (MiniOS.ilock k >>= f) s post err := by
  refine wp_seq (wp_mono (good.ilock free) (fun _ _ => id) fun e none => ?_) fun _ t ⟨there, good⟩ => ?_
  · rw [none.1]
    exact gone none.2
  · obtain ⟨n, there⟩ := Option.isSome_iff_exists.1 there
    exact rest t n there good

/-- The link count of a locked inode changes. -/
theorem relink (good : Good v (⟨k, i, true⟩ ::ₘ X) L s) (there : v.node i = some n) (nlink : BitVec 16 → BitVec 16) :
    wp (do modifyDinode k fun d => { d with nlink := nlink d.nlink }
           iupdate k) s
      (fun _ t => Good (v.setNode i (some { n with nlink := nlink n.nlink })) (⟨k, i, true⟩ ::ₘ X) L t) err :=
  good.update (Multiset.mem_cons_self ..) there id id nlink

theorem iunlockput_drop (good : Good v (⟨k, i, true⟩ ::ₘ X) (insert i L) s) (free : i ∉ L)
    (alone : i ∉ X.map Handle.inum) :
    wp (iunlockput k) s (fun _ t => Good (v.drop i) X L t) err :=
  wp_seq (good.iunlock_own free) fun _ _ good => good.iput_drop free (fun _ => rfl) alone

/-- The label `bad` of `sys_link` takes the link count back. -/
theorem linkBad (good : Good (v.setNode i (some { n with nlink := n.nlink + 1 })) {⟨k, i, b⟩} ∅ s)
    (there : v.node i = some n) (kept : v.Keeps 0 i) : wp (linkBad k) s (fun r t => r = -1 ∧ Good v 0 ∅ t) err := by
  have now : (v.setNode i (some { n with nlink := n.nlink + 1 })).node i = some { n with nlink := n.nlink + 1 } :=
    View.setNode_node_self ..
  refine good.ilock_seq (Finset.notMem_empty i) (fun gone => absurd (now.symm.trans gone) nofun)
    fun t m here good => ?_
  cases now.symm.trans here
  refine wp_seq_pair (good.relink now (· - 1)) fun _ t good => ?_
  have back : (v.setNode i (some { n with nlink := n.nlink + 1 })).setNode i
      (some { n with nlink := n.nlink + 1 - 1 }) = v := by
    rw [View.setNode_setNode, BitVec.add_sub_cancel, ← there, View.setNode_self]
  rw [back] at good
  exact wp_seq (good.iunlockput_kept (Finset.notMem_empty i) kept) fun _ t good => ⟨rfl, good⟩

/-- The part of `sys_link` with the parent directory locked. -/
theorem linkIn {v' : View} (good : Good v (⟨l, d, true⟩ ::ₘ {⟨k, i, true⟩}) (insert d ∅) s)
    (apart : d ≠ i) (there : v.node d = some m) (dir : m.IsDir) (walkable : v.Walkable {⟨k, i, true⟩})
    (kept : v.Keeps {⟨k, i, true⟩} d) (bad : ∀ t, Good v {⟨k, i, true⟩} ∅ t →
      wp (MiniOS.linkBad k) t (fun r t => r = -1 ∧ Good v' 0 ∅ t) (v.Lacks ·)) :
    wp (do let r ← linkEntry l k name
           if r < 0 then do
             iunlockput l
             MiniOS.linkBad k
           else do
             iunlockput l
             MiniOS.iput k
             pure 0) s (Ends (v.linkIn v' i d name)) (Stops v (v.linkIn v' i d name)) := by
  have first := good.handle _ (Multiset.mem_cons_self ..)
  have second := good.handle ⟨k, i, true⟩ (by simp)
  have device : (s.icache l).dev = (s.icache k).dev :=
    ((good.entry l).number first.1.1).1.trans ((good.entry k).number second.1.1).1.symm
  have number : (s.icache k).inum = i := second.1.2
  have entry : wp (linkEntry l k name) s (fun r t =>
      (∃ j off, lookup m.data name = some (j, off) ∧ j ≠ d ∧ r = -1 ∧
        Good v (⟨l, d, true⟩ ::ₘ {⟨k, i, true⟩}) (insert d ∅) t) ∨
      lookup m.data name = none ∧ r = 0 ∧ ∃ v₁, v.addEntry d m name i = .ok v₁ ∧
      Good v₁ (⟨l, d, true⟩ ::ₘ {⟨k, i, true⟩}) (insert d ∅) t)
      (Stops v (v.linkIn v' i d name)) := by
    refine wp_inode l (wp_inode k ?_)
    rw [if_neg (not_not.2 device), number, View.linkIn, View.locked_some there]
    cases look : lookup m.data name with
    | some found =>
      obtain ⟨j, off⟩ := found
      have range := walkable.range there dir.type look
      by_cases self : j = d
      · refine wp_mono (good.dirlink_deadlock (Multiset.mem_cons_self ..) there dir look range
          (by rw [self]; exact Finset.mem_insert_self ..))
          (fun _ _ => False.elim) fun e stopped => stopped.imp (fun dead => ?_) fun full => ?_
        · simp only [if_pos self, dead]
        · rw [full.1]
          exact View.lacks_iget full.2 (by simp)
      · refine wp_mono (good.dirlink_found (Multiset.mem_cons_self ..) there dir look range (by simpa using self) ?_)
          (fun r t after => .inl ⟨j, off, rfl, self, after⟩) fun e full => .inr ?_
        · exact (walkable.next kept there dir.type look).cons _
        · rw [full.1]
          exact View.lacks_iget full.2 (by simp)
    | none =>
      refine wp_mono (good.dirlink_new (Multiset.mem_cons_self ..) there dir look)
        (fun r t ends => .inr ⟨rfl, ends.1, _, ?_, ends.2.2⟩)
        fun e stopped => ?_
      · have small := ends.2.1
        rw [View.addEntry, if_neg (by omega)]
      · rcases stopped with ⟨rfl, room⟩ | ⟨rfl, large⟩
        · have total := View.blocks_setNode (good.ninodes ▸ good.inside first.1) there (m.link name i)
          have more := View.link_blocks dir name i
          exact .inr (.inl ⟨rfl, by omega⟩)
        · exact .inl (by simp only [View.addEntry, if_pos large])
  refine wp_seq entry fun r t after => ?_
  rw [View.linkIn, View.locked_some there]
  obtain ⟨j, off, look, self, rfl, good⟩ | ⟨look, rfl, v₁, added, good⟩ := after
  · simp only [look]
    rw [if_pos (by decide)]
    refine wp_seq (good.iunlockput_kept (Finset.notMem_empty d) kept) fun _ t good => ?_
    simp only [if_neg self]
    refine wp_mono (bad t good) ?_ fun e => .inr
    rintro _ t ⟨rfl, good⟩
    exact ⟨v', rfl, good⟩
  · simp only [look]
    rw [if_neg (by decide)]
    simp only [added]
    refine wp_seq (good.iunlockput_drop (Finset.notMem_empty d) (by simpa using apart)) fun _ t good => ?_
    exact wp_seq (good.iput_drop (Finset.notMem_empty i) (fun _ => rfl) (Multiset.notMem_zero i)) fun _ t good =>
      ⟨_, rfl, good⟩

theorem sysLink {old new : Bytes} (good : Good v 0 ∅ s) (walkable : v.Walkable 0) (here : (v.proc p).cwd = some c) :
    wp (sysLink p (some old) (some new)) s (Ends (v.sysLink p old new)) (Stops v (v.sysLink p old new)) := by
  refine good.namei_seq walkable here (fun e stopped => ?_) (fun full => .inr (View.lacks_iget full (by simp)))
    (fun t none good => ⟨v, ?_, good⟩) fun t i k b _ walked kept good => ?_
  · exact .inl (by rw [View.sysLink, stopped])
  · rw [View.sysLink, none]
  · rw [View.sysLink, walked]
    simp only
    refine good.ilock_seq (Finset.notMem_empty i) (fun gone => .inl (View.locked_none gone)) fun t n there good =>
      wp_inode k ?_
    rw [good.type_eq (Multiset.mem_cons_self ..) there, View.locked_some there]
    refine wp_ite (fun dir => ?_) fun file => ?_
    · exact wp_seq (good.iunlockput_kept (Finset.notMem_empty i) kept) fun _ t good => ⟨v, if_pos dir, good⟩
    · rw [if_neg file]
      refine wp_seq_pair (good.relink there (· + 1)) fun _ t good => wp_seq (good.iunlock_own (Finset.notMem_empty i))
        fun _ t good => ?_
      have now : (v.setNode i (some { n with nlink := n.nlink + 1 })).node i = some { n with nlink := n.nlink + 1 } :=
        View.setNode_node_self ..
      have inside : i < v.ninodes := good.ninodes ▸ good.inside good.mine
      have blocks : (v.setNode i (some { n with nlink := n.nlink + 1 })).blocks = v.blocks :=
        Nat.add_right_cancel (View.blocks_setNode inside there { n with nlink := n.nlink + 1 })
      have lacks : ∀ {e}, (v.setNode i (some { n with nlink := n.nlink + 1 })).Lacks e → v.Lacks e := by
        intro e
        rw [View.Lacks, blocks]
        exact id
      have walkable' := walkable.bump (k := k) (b := true) there file (n.nlink + 1)
      have good : Good (v.setNode i (some { n with nlink := n.nlink + 1 })) {⟨k, i, true⟩} ∅ t := good
      refine good.nameiparent_seq walkable' here (fun e stopped => .inl (by simp only [stopped]))
        (fun full => .inr (View.lacks_iget full (by simp))) (fun t none good => ?_)
        fun t d m l b name walked theirs dir kept' good => ?_
      · refine wp_mono (good.linkBad there kept) ?_ fun _ => id
        rintro _ t ⟨rfl, good⟩
        exact ⟨v, by simp only [none], good⟩
      · have apart : d ≠ i := by
          rintro rfl
          cases now.symm.trans theirs
          exact file dir.type
        simp only [walked]
        refine good.ilock_seq (Finset.notMem_empty d) (fun gone => absurd (theirs.symm.trans gone) nofun)
          fun t m' theirs' good => ?_
        cases theirs.symm.trans theirs'
        exact wp_mono (good.linkIn apart theirs dir walkable' kept' fun t good => good.linkBad there kept)
          (fun _ _ => id)
          fun e => Or.imp id lacks

theorem unlinkable (good : Good v X L s) (mem : ⟨k, i, true⟩ ∈ X) (there : v.node i = some n)
    (walkable : v.Walkable 0) :
    wp (unlinkable k) s (fun r t => ¬n.nlink.toInt < 1 ∧
      (r = false ↔ n.type = tDir ∧ isEmptyDir n.data = false) ∧ t = s)
      fun e => e = .panic "unlink: nlink < 1" ∧ n.nlink.toInt < 1 := by
  refine wp_inode k ?_
  rw [good.nlink_eq mem there, good.type_eq mem there]
  refine wp_guard (fun few => ⟨rfl, few⟩) fun enough => wp_ite (fun dir => ?_) fun file => ?_
  · refine wp_mono (good.isdirempty mem there (walkable.isDir there dir)) ?_ fun _ => id
    rintro _ _ ⟨rfl, rfl⟩
    exact ⟨enough, ⟨fun full => ⟨dir, full⟩, fun both => both.2⟩, rfl⟩
  · exact ⟨enough, ⟨nofun, fun both => absurd both.1 file⟩, rfl⟩

theorem ilock_deadlock (good : Good v (⟨k, i, b⟩ ::ₘ X) L s) (taken : i ∈ L) :
    wp (MiniOS.ilock k) s (fun _ _ => False) fun e => e = .deadlock := by
  have caches := good.mine
  refine wp_inode k (wp_guard (fun none => absurd caches.1 (by omega)) fun _ => ?_)
  exact wp_seq (good.acquiresleep_deadlock caches taken) fun _ _ => False.elim

/-- The entry at `off` of the directory `d` is removed. -/
theorem unlinkEntry {j off : Nat}
    (good : Good v (⟨l, j, true⟩ ::ₘ {⟨k, d, true⟩}) (insert j (insert d ∅)) s) (apart : j ≠ d)
    (parent : v.node d = some m) (dir : m.IsDir) (there : v.node j = some n)
    (inside : off ∈ direntOffs m.data.length 0) :
    wp (unlinkEntry k l off) s (fun r t => r = 0 ∧ Good
        ((((v.setNode d (some (View.unlinkedFrom m n off))).drop d).setNode j
          (some { n with nlink := n.nlink - 1 })).drop j) 0 ∅ t)
      (v.Lacks ·) := by
  have mem : (⟨k, d, true⟩ : Handle) ∈ (⟨l, j, true⟩ ::ₘ {⟨k, d, true⟩} : Multiset Handle) := by simp
  obtain ⟨x, -, below, rfl⟩ := (mem_direntOffs dir.whole).1 inside
  have whole := dir.whole
  have small := good.small parent
  have bound : d < v.ninodes := good.ninodes ▸ good.inside (good.handle _ mem).1
  have zeros : ((⟨0, List.replicate dirsiz 0⟩ : Dirent).name).length = 14 := List.length_replicate
  refine wp_seq (wp_mono (good.writeDirent mem parent dir zeros (Nat.le_of_lt below))
    (fun _ _ => id) fun e stopped => ?_)
    fun _ t ⟨_, good⟩ => ?_
  · rcases stopped with ⟨rfl, room⟩ | ⟨rfl, large⟩
    · have total := View.blocks_setNode bound parent (m.write (16 * x) (Dirent.toBytes ⟨0, List.replicate dirsiz 0⟩))
      rw [View.write_dirent_blocks zeros (by omega)] at total
      exact .inl ⟨rfl, by omega⟩
    · omega
  · have now : (v.setNode d (some (m.write (16 * x) (Dirent.toBytes ⟨0, List.replicate dirsiz 0⟩)))).node j =
        some n :=
      (View.setNode_node_of_ne _ apart).trans there
    have count : wp (unlinkDotdot k l) t (fun _ t => Good (v.setNode d (some (View.unlinkedFrom m n (16 * x))))
        (⟨l, j, true⟩ ::ₘ {⟨k, d, true⟩}) (insert j (insert d ∅)) t) (v.Lacks ·) := by
      refine wp_inode l ?_
      rw [good.type_eq (Multiset.mem_cons_self ..) now]
      refine wp_ite (fun isDir => ?_) fun file => ?_
      · refine wp_mono (good.update mem (View.setNode_node_self ..) id id (· - 1)) (fun _ t good => ?_) fun _ => id
        rw [View.setNode_setNode] at good
        rw [View.unlinkedFrom, if_pos isDir]
        exact good
      · rw [View.unlinkedFrom, if_neg file]
        exact good
    refine wp_seq count fun _ t good => ?_
    rw [Finset.insert_comm] at good
    have good : Good _ (⟨k, d, true⟩ ::ₘ ⟨l, j, true⟩ ::ₘ 0) _ t := good.swap
    refine wp_seq (good.iunlockput_drop (by simpa using apart.symm) (by simpa using apart.symm)) fun _ t good => ?_
    have last : ((v.setNode d (some (View.unlinkedFrom m n (16 * x)))).drop d).node j = some n := by
      rw [View.drop_node_of_ne apart, View.setNode_node_of_ne _ apart, there]
    refine wp_seq_pair (good.relink last (· - 1)) fun _ t good => ?_
    exact wp_seq (good.iunlockput_drop (Finset.notMem_empty j) (Multiset.notMem_zero j)) fun _ t good => ⟨rfl, good⟩

theorem sysUnlink (good : Good v 0 ∅ s) (walkable : v.Walkable 0) (here : (v.proc p).cwd = some c) :
    wp (sysUnlink p (some path)) s (Ends (v.sysUnlink p path)) (Stops v (v.sysUnlink p path)) := by
  refine good.nameiparent_seq walkable here (fun e stopped => ?_) (fun full => .inr (View.lacks_iget full (by simp)))
    (fun t none good => ⟨v, ?_, good⟩) fun t d m k b name walked parent dir kept good => ?_
  · exact .inl (by rw [View.sysUnlink, stopped])
  · rw [View.sysUnlink, none]
  · rw [View.sysUnlink, walked]
    simp only
    rw [View.locked_some parent]
    have free := Finset.notMem_empty d
    refine good.ilock_seq free (fun gone => absurd (parent.symm.trans gone) nofun) fun t _ _ good =>
      wp_ite (fun dots => ?_) fun named => ?_
    · exact wp_seq (good.iunlockput_kept free kept) fun _ t good => ⟨v, if_pos dots, good⟩
    · rw [if_neg named]
      refine wp_seq (wp_mono (good.dirlookup (Multiset.mem_cons_self ..) parent dir name
        fun j off found => walkable.range parent dir.type found) (fun _ _ => id) fun e full => .inr ?_) ?_
      · rw [full.2.1]
        exact View.lacks_iget full.2.2 (by simp)
      · cases look : lookup m.data name with
        | none =>
          rintro _ t ⟨rfl, rfl⟩
          exact wp_seq (good.iunlockput_kept free kept) fun _ t good => ⟨v, rfl, good⟩
        | some found =>
          obtain ⟨j, off⟩ := found
          rintro _ t ⟨l, rfl, good⟩
          simp only
          by_cases self : j = d
          · refine wp_seq (wp_mono (good.ilock_deadlock (by rw [self]; exact Finset.mem_insert_self ..))
              (fun _ _ => id) fun e dead => ?_)
              fun _ _ => False.elim
            exact .inl (by rw [if_pos self, dead])
          · rw [if_neg self]
            have kept' := walkable.next kept parent dir.type look
            have apart : j ∉ insert d (∅ : Finset Nat) := by simpa using self
            refine good.ilock_seq apart (fun gone => .inl (View.locked_none gone)) fun t n there good => ?_
            rw [View.locked_some there]
            refine wp_seq (wp_mono (good.unlinkable (Multiset.mem_cons_self ..) there walkable) (fun _ _ => id)
              fun e few => .inl (by rw [if_pos few.2, few.1])) ?_
            rintro empty _ ⟨enough, full, rfl⟩
            rw [if_neg enough]
            refine wp_ite (fun no => ?_) fun yes => ?_
            · refine wp_seq (good.iunlockput_kept apart (kept'.cons _)) fun _ t good => ?_
              exact wp_seq (good.iunlockput_kept free kept) fun _ t good => ⟨v, if_pos (full.1 no), good⟩
            · rw [if_neg fun both => yes (full.2 both)]
              refine wp_mono (good.unlinkEntry self parent dir there (lookup_eq_some look).1) ?_ fun e => .inr
              rintro _ t ⟨rfl, good⟩
              exact ⟨_, rfl, good⟩

end Good

end MiniOS
