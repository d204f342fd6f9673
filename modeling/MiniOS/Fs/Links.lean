import MiniOS.Fs.OpenCall
import MiniOS.Fs.Resolve
import Mathlib.Algebra.BigOperators.Ring.Finset

namespace MiniOS

open Lib

/-- How many entries of a directory are used. -/
def Node.live (n : Node) : Nat := if n.type = tDir then (entries n.data).countP fun de => de.inum ≠ 0 else 0

/-- How many names the files of a view have. -/
def View.names (v : View) : Nat := ∑ i ∈ Finset.range v.ninodes, ((v.node i).map Node.live).getD 0

section Counting

variable {sb : Superblock} {block : Nat → Block} {n : Node} {i : Nat} {de : Dirent}

/-- The files have no more blocks than the disk. -/
theorem Image.covered_le {inodes : Nat → Dinode} (image : Image sb block inodes) :
    ∑ i ∈ Finset.range sb.ninodes,
    (if (inodes i).type ≠ 0 then ((inodes i).size.toNat + 511) / 512 else 0) ≤ sb.size := by
  let covered := (Finset.range sb.ninodes).sigma fun i => Finset.range
    (if (inodes i).type ≠ 0 then ((inodes i).size.toNat + 511) / 512 else 0)
  have owned : ∀ x ∈ covered, ∃ y b, slotOf x.2 = some y ∧ owner sb block inodes (x.1, y) = some b := by
    rintro ⟨i, bn⟩ mem
    obtain ⟨inside, small⟩ := Finset.mem_sigma.1 mem
    rw [Finset.mem_range] at inside small
    dsimp only at inside small
    split at small
    · rename_i used
      obtain ⟨b, here⟩ := Option.isSome_iff_exists.1 (image.mapped i inside used bn (by omega))
      obtain ⟨y, slot, here⟩ := fileBlock_eq_some.1 here
      exact ⟨y, b, slot, by rw [owner, if_pos ⟨inside, used⟩]; exact here⟩
    · exact absurd small (Nat.not_lt_zero _)
  have few : covered.card ≤ sb.size := by
    refine card_le_of_cells (fun x => (slotOf x.2).bind fun y => owner sb block inodes (x.1, y)) (fun x mem => ?_)
      fun x mem y mem' b here there => ?_
    · obtain ⟨y, b, slot, here⟩ := owned x mem
      exact ⟨b, (image.owns.range here).2, by rw [slot]; exact here⟩
    · obtain ⟨z, slot, here⟩ := Option.bind_eq_some_iff.1 here
      obtain ⟨z', slot', there⟩ := Option.bind_eq_some_iff.1 there
      obtain ⟨same, rfl⟩ := Prod.mk.inj (image.owns.apart here there)
      exact Sigma.ext same (heq_of_eq (slotOf_inj slot slot'))
  rw [Finset.card_sigma] at few
  simpa only [Finset.card_range] using few

theorem Node.live_le (n : Node) : n.live ≤ 32 * ((n.data.length + 511) / 512) := by
  rw [Node.live]
  split
  · refine Nat.le_trans List.countP_le_length ?_
    rw [entries_length]
    omega
  · exact Nat.zero_le _

/-- The disk has room for 32000 entries. -/
theorem Good.names_le {v : View} {X : Multiset Handle} {L : Finset Nat} {s : Fs} (good : Good v X L s) :
    v.names ≤ 32 * fssize := by
  have covered := good.disk.image.covered_le
  have disk := good.disk.image.laid.disk
  refine Nat.le_trans ?_ (Nat.mul_le_mul_left 32 (Nat.le_trans covered disk))
  rw [View.names, ← good.ninodes, Finset.mul_sum]
  refine Finset.sum_le_sum fun i mem => ?_
  rw [good.disk.nodes]
  cases there : nodeAt s.sb s.block i with
  | none => exact Nat.zero_le _
  | some n =>
    obtain ⟨⟨_, used⟩, rfl⟩ := nodeAt_eq_some.1 there
    have live := (nodeOf s.block (dinodeOf s.sb s.block i)).live_le
    rw [if_pos used, Option.map_some, Option.getD_some]
    rwa [nodeOf, contents_length] at live

theorem countP_putEntry {es : List Dirent} {x : Nat} (free : ∀ old, es[x]? = some old → old.inum = 0)
    (used : de.inum ≠ 0) : (putEntry es x de).countP (fun de => de.inum ≠ 0) = es.countP
    (fun de => de.inum ≠ 0) + 1 := by
  rw [putEntry]
  split
  · rename_i inside
    have old := free es[x] (List.getElem?_eq_getElem inside)
    rw [List.countP_set inside]
    simpa [old] using used
  · rw [List.countP_append]
    simpa using used

/-- A new entry is one more. -/
theorem Node.IsDir.live_link (dir : n.IsDir) (name : Bytes) (real : BitVec.ofNat 16 i ≠ 0) :
    (n.link name i).live = n.live + 1 := by
  obtain ⟨x, place, start, free⟩ := freeOff_entry n.data dir.whole
  obtain ⟨dir', put⟩ := Node.IsDir.put ⟨BitVec.ofNat 16 i, strncpy name dirsiz⟩ dir (strncpy_length ..) start
  rw [Node.live, Node.live, Node.link, place, if_pos dir'.type, if_pos dir.type, put]
  exact countP_putEntry free real

theorem Node.IsDir.mem_link {name : Bytes} (dir : n.IsDir) (member : de ∈ entries (n.link name i).data) :
    de ∈ entries n.data ∨ de.inum = BitVec.ofNat 16 i := by
  obtain ⟨x, place, start, -⟩ := freeOff_entry n.data dir.whole
  obtain ⟨-, put⟩ := Node.IsDir.put ⟨BitVec.ofNat 16 i, strncpy name dirsiz⟩ dir (strncpy_length ..) start
  rw [Node.link, place, put] at member
  obtain ⟨y, here⟩ := List.mem_iff_getElem?.1 member
  rw [getElem?_putEntry start] at here
  split at here
  · cases here
    exact .inr rfl
  · exact .inl (List.mem_of_getElem? here)

theorem Node.IsDir.link_isDir (dir : n.IsDir) (name : Bytes) (i : Nat) : (n.link name i).IsDir := by
  obtain ⟨x, place, start, -⟩ := freeOff_entry n.data dir.whole
  rw [Node.link, place]
  exact (Node.IsDir.put ⟨BitVec.ofNat 16 i, strncpy name dirsiz⟩ dir (strncpy_length ..) start).1

end Counting

namespace View

variable {v v' : View} {i d : Nat} {n m : Node} {name : Bytes} {p : Fin nproc} {parent : Bool} {path : Bytes}

theorem names_setNode (inside : i < v.ninodes) (there : v.node i = some n) (m : Node) :
    (v.setNode i (some m)).names + n.live = v.names + m.live := by
  have total := sum_update Node.live v.ninodes v.node inside (some m)
  rw [there] at total
  exact total

theorem names_new (inside : i < v.ninodes) (free : v.node i = none) (m : Node) :
    (v.setNode i (some m)).names = v.names + m.live := by
  have total := sum_update Node.live v.ninodes v.node inside (some m)
  rw [free] at total
  exact total

/-- A file system between calls: it is a tree, no inode has more links than there are names, apart
from the root directory, and the processes have a current directory. -/
structure Consistent (v : View) : Prop where
  tree : v.Tree
  zero : v.node 0 = none
  links : ∀ {i n}, v.node i = some n → n.nlink.toNat ≤ v.names + 1
  tidy : v.Tidy
  home : ∀ p, (v.proc p).state ≠ .unused → (v.proc p).state ≠ .zombie → ∃ c, (v.proc p).cwd = some c

/-- The view with `n` for inode `i` and a name of it in the directory `d`. -/
def enter (v : View) (i : Nat) (n : Node) (d : Nat) (m : Node) (name : Bytes) : View :=
  (v.setNode i (some n)).setNode d (some (m.link name i))

section Enter

variable {nlink : BitVec 16} {j : Nat}

theorem enter_node_place (v : View) (i : Nat) (n : Node) (d : Nat) (m : Node) (name : Bytes) :
    (v.enter i n d m name).node d = some (m.link name i) := setNode_node_self ..

theorem enter_node_new (apart : d ≠ i) : (v.enter i n d m name).node i = some n :=
  (setNode_node_of_ne _ apart.symm).trans (setNode_node_self ..)

theorem enter_node_of_ne (place : j ≠ d) (new : j ≠ i) : (v.enter i n d m name).node j = v.node j :=
  (setNode_node_of_ne _ place).trans (setNode_node_of_ne _ new)

/-- The inodes are still there, and those that had links have links. -/
theorem enter_survives {x : Node} (name : Bytes) (apart : d ≠ i) (linked : n.nlink ≠ 0) (place : v.node d = some m)
    (kept : m.nlink ≠ 0 → nlink ≠ 0) (there : v.node j = some x) : ∃ y,
    (v.enter i n d { m with nlink := nlink } name).node j = some y ∧ (x.nlink ≠ 0 → y.nlink ≠ 0) := by
  by_cases here : j = d
  · subst here
    cases place.symm.trans there
    exact ⟨_, enter_node_place .., kept⟩
  · by_cases new : j = i
    · subst new
      exact ⟨n, enter_node_new apart, fun _ => linked⟩
    · exact ⟨x, (enter_node_of_ne here new).trans there, id⟩

theorem Tree.enter (tree : v.Tree) (place : v.node d = some m) (dir : m.IsDir) (apart : d ≠ i)
    (short : i < 2 ^ 16) (linked : n.nlink ≠ 0) (kept : m.nlink ≠ 0 → nlink ≠ 0)
    (whole : n.type = tDir → n.data.length % 16 = 0) (names : ∀ de ∈ entries n.data, n.type = tDir → de.inum ≠ 0 →
      de.inum.toNat = i ∨ de.inum.toNat = d ∧ nlink ≠ 0) :
    (v.enter i n d { m with nlink := nlink } name).Tree := by
  have dir' : ({ m with nlink := nlink } : Node).IsDir := ⟨dir.type, dir.whole⟩
  refine ⟨?_, fun {j x} there isDir => ?_, fun {j x de} there isDir member used => ?_⟩
  · obtain ⟨x, there, some⟩ := tree.root
    obtain ⟨y, there', some'⟩ := enter_survives name apart linked place kept there
    exact ⟨y, there', some' some⟩
  · by_cases here : j = d
    · subst here
      cases (enter_node_place ..).symm.trans there
      exact (dir'.link_isDir name i).whole
    · by_cases new : j = i
      · subst new
        cases (enter_node_new apart).symm.trans there
        exact whole isDir
      · exact tree.whole ((enter_node_of_ne here new).symm.trans there) isDir
  · -- An entry that was there names the same inode, and the new one names `i`.
    have old : ∀ {x}, v.node j = some x → x.type = tDir → de ∈ entries x.data →
        ∃ y, (v.enter i n d { m with nlink := nlink } name).node de.inum.toNat = some y ∧
        (de.inum.toNat = j ∨ y.nlink ≠ 0) := by
      intro x there isDir member
      obtain ⟨y, there', self⟩ := tree.entry there isDir member used
      obtain ⟨z, there'', some⟩ := enter_survives name apart linked place kept there'
      exact ⟨z, there'', self.imp id some⟩
    by_cases here : j = d
    · subst here
      cases (enter_node_place ..).symm.trans there
      rcases dir'.mem_link member with member | number
      · exact old place dir.type member
      · have number : de.inum.toNat = i := by
          rw [number, BitVec.toNat_ofNat, Nat.mod_eq_of_lt short]
        rw [number]
        exact ⟨n, enter_node_new apart, .inr linked⟩
    · by_cases new : j = i
      · subst new
        cases (enter_node_new apart).symm.trans there
        rcases names de member isDir used with self | ⟨parent, some⟩
        · rw [self]
          exact ⟨n, enter_node_new apart, .inl rfl⟩
        · rw [parent]
          exact ⟨_, enter_node_place .., .inr some⟩
      · exact old ((enter_node_of_ne here new).symm.trans there) isDir member

/-- The new name is one more. -/
theorem names_enter (nlink : BitVec 16) {live : Nat} (place : v.node d = some m) (dir : m.IsDir)
    (bound : d < v.ninodes) (apart : d ≠ i) (real : BitVec.ofNat 16 i ≠ 0)
    (before : (v.setNode i (some n)).names = v.names + live) : (v.enter i n d { m with nlink := nlink } name).names =
    v.names + live + 1 := by
  have held : (v.setNode i (some n)).node d = some m := (setNode_node_of_ne _ apart).trans place
  have dir' : ({ m with nlink := nlink } : Node).IsDir := ⟨dir.type, dir.whole⟩
  have total := names_setNode (v := v.setNode i (some n)) bound held ({ m with nlink := nlink }.link name i)
  have same : ({ m with nlink := nlink } : Node).live = m.live := rfl
  rw [dir'.live_link name real] at total
  rw [View.enter]
  omega

theorem Consistent.enter (nlink : BitVec 16) (right : v.Consistent) (place : v.node d = some m) (dir : m.IsDir)
    (apart : d ≠ i) (real : 0 < i) (short : i < 2 ^ 16) (linked : n.nlink ≠ 0) (kept : m.nlink ≠ 0 → nlink ≠ 0)
    (whole : n.type = tDir → n.data.length % 16 = 0) (names : ∀ de ∈ entries n.data, n.type = tDir → de.inum ≠ 0 →
      de.inum.toNat = i ∨ de.inum.toNat = d ∧ nlink ≠ 0)
    (more : v.names + 1 ≤ (v.enter i n d { m with nlink := nlink } name).names) (one : n.nlink.toNat ≤ v.names + 2)
    (one' : nlink.toNat ≤ m.nlink.toNat + 1) : (v.enter i n d { m with nlink := nlink } name).Consistent where
  tree := right.tree.enter place dir apart short linked kept whole names
  zero := by
    have other : 0 ≠ d := by
      rintro rfl
      cases right.zero.symm.trans place
    exact (enter_node_of_ne other (by omega)).trans right.zero
  links {j x} there := by
    by_cases here : j = d
    · subst here
      have := right.links place
      cases (enter_node_place ..).symm.trans there
      have same : (Node.link { m with nlink := nlink } name i).nlink = nlink := rfl
      rw [same]
      omega
    · by_cases new : j = i
      · subst new
        cases (enter_node_new apart).symm.trans there
        omega
      · have := right.links ((enter_node_of_ne here new).symm.trans there)
        omega
  tidy := right.tidy
  home := right.home

end Enter

/-- A walk depends on the types and contents of the nodes only. -/
theorem walk_congr {rounds j : Nat}
    (same : ∀ j, (v'.node j).map (fun n => (n.type, n.data)) = (v.node j).map fun n => (n.type, n.data)) :
    v'.walk parent rounds j path = v.walk parent rounds j path := by
  induction rounds generalizing j path with
  | zero => rfl
  | succ rounds ih =>
    rw [walk, walk]
    cases skipelem path with
    | none => rfl
    | some elem =>
      obtain ⟨name, rest⟩ := elem
      have here := same j
      simp only
      cases old : v.node j with
      | none =>
        rw [old, Option.map_none, Option.map_eq_none_iff] at here
        rw [here]
      | some n =>
        rw [old, Option.map_some, Option.map_eq_some_iff] at here
        obtain ⟨n', new, pair⟩ := here
        obtain ⟨type, data⟩ := Prod.mk.inj pair
        rw [new]
        simp only [type, data, ih]

theorem namex_congr (procs : v'.proc = v.proc)
    (same : ∀ j, (v'.node j).map (fun n => (n.type, n.data)) = (v.node j).map fun n => (n.type, n.data)) :
    v'.namex p path parent = v.namex p path parent := by
  rw [namex, namex, procs]
  split
  · rfl
  · exact walk_congr same

theorem namex_relink {nlink : BitVec 16} (there : v.node i = some n) :
    (v.setNode i (some { n with nlink := nlink })).namex p path parent = v.namex p path parent := by
  refine namex_congr rfl fun j => ?_
  by_cases here : j = i
  · rw [here, setNode_node_self, there]
    rfl
  · rw [setNode_node_of_ne _ here]

/-- What a `sys_link` that returns has done. -/
theorem sysLink_ok {old new : Bytes} {r : Int} (ans : v.sysLink p old new = .ok (r, v')) :
    r = -1 ∧ v' = v ∨ r = 0 ∧ ∃ i n d m name x, v.namex p old false = .ok (some (i, x)) ∧
    v.node i = some n ∧ n.type ≠ tDir ∧
      v.namex p new true = .ok (some (d, name)) ∧
      (v.setNode i (some { n with nlink := n.nlink + 1 })).node d = some m ∧
      lookup m.data name = none ∧ v' = ((v.enter i { n with nlink := n.nlink + 1 } d m name).drop d).drop i := by
  rw [sysLink] at ans
  split at ans
  · cases ans
  · cases ans
    exact .inl ⟨rfl, rfl⟩
  · rename_i i x walked
    obtain ⟨n, there, ans⟩ := locked_ok ans
    split at ans
    · cases ans
      exact .inl ⟨rfl, rfl⟩
    · rename_i file
      dsimp only at ans
      rw [namex_relink there] at ans
      split at ans
      · cases ans
      · cases ans
        exact .inl ⟨rfl, rfl⟩
      · rename_i d name walked'
        rw [linkIn] at ans
        obtain ⟨m, place, ans⟩ := locked_ok ans
        split at ans
        · split at ans
          · cases ans
          · cases ans
            exact .inl ⟨rfl, rfl⟩
        · rename_i absent
          split at ans
          · cases ans
          · rename_i w added
            cases ans
            obtain ⟨-, rfl⟩ := addEntry_ok added
            exact .inr ⟨rfl, i, n, d, m, name, x, walked, there, file, walked', place, absent, rfl⟩

end View

namespace Good

variable {v v' : View} {s : Fs} {i d : Nat} {n m : Node} {name path : Bytes} {p : Fin nproc}
  {r : Int} {type major minor : BitVec 16}

/-- The directory in which a call enters a name. -/
theorem parent_found (good : Good v 0 ∅ s) (right : v.Consistent)
    (walked : v.namex p path true = .ok (some (d, name))) :
    v.Keeps 0 d ∧ ∃ m, v.node d = some m ∧ m.IsDir := by
  have walkable : v.Walkable 0 := right.tree.walkable good.node_inside
  obtain ⟨kept, isDir⟩ := View.namex_found walkable walked
  obtain ⟨m, place, dir⟩ := isDir rfl
  exact ⟨kept, m, place, walkable.isDir place dir⟩

theorem nlink_succ (good : Good v 0 ∅ s) (right : v.Consistent) (there : v.node i = some n) :
    n.nlink + 1 ≠ 0 ∧ (n.nlink + 1).toNat = n.nlink.toNat + 1 := by
  have few : v.names ≤ 32000 := good.names_le
  have links := right.links there
  have number : (n.nlink + 1).toNat = n.nlink.toNat + 1 := by
    rw [BitVec.toNat_add, show (1 : BitVec 16).toNat = 1 from rfl]
    omega
  refine ⟨fun zero => ?_, number⟩
  rw [zero] at number
  simp at number

theorem inode_pos (right : v.Consistent) (there : v.node i = some n) : 0 < i := by
  rw [Nat.pos_iff_ne_zero]
  rintro rfl
  cases right.zero.symm.trans there

/-- A directory that gets an entry is not freed. -/
theorem drop_place (nlink : BitVec 16) (kept : v.Keeps 0 d) (place : v.node d = some m)
    (same : nlink = 0 → m.nlink = 0) :
    (v.enter i n d { m with nlink := nlink } name).drop d = v.enter i n d { m with nlink := nlink } name := by
  refine View.drop_of_keeps fun dead => ?_
  obtain ⟨x, there, gone⟩ := dead
  cases (View.enter_node_place ..).symm.trans there
  exact kept ⟨m, place, same gone⟩

/-- Neither the directory nor the inode with one more link is freed. -/
theorem drop_linked (good : Good v 0 ∅ s) (right : v.Consistent) (kept : v.Keeps 0 d) (there : v.node i = some n)
    (place : v.node d = some m) (apart : d ≠ i) : ((v.enter i { n with nlink := n.nlink + 1 } d m name).drop d).drop
    i = v.enter i { n with nlink := n.nlink + 1 } d m name := by
  have same : (v.enter i { n with nlink := n.nlink + 1 } d m name).drop d =
      v.enter i { n with nlink := n.nlink + 1 } d m name :=
    drop_place m.nlink kept place id
  rw [same]
  refine View.drop_of_keeps fun dead => ?_
  obtain ⟨y, there', gone⟩ := dead
  cases (View.enter_node_new apart).symm.trans there'
  exact absurd gone (good.nlink_succ right there).1

theorem sysLink_consistent {old new : Bytes} (good : Good v 0 ∅ s) (right : v.Consistent)
    (ans : v.sysLink p old new = .ok (r, v')) :
    v'.Consistent := by
  rcases View.sysLink_ok ans with ⟨-, rfl⟩ | ⟨-, i, n, d, m, name, x, -, there, file, walked, place, absent, rfl⟩
  · exact right
  · obtain ⟨kept, m', place', dir⟩ := good.parent_found right walked
    have apart : d ≠ i := by
      rintro rfl
      cases there.symm.trans place'
      exact file dir.type
    rw [View.setNode_node_of_ne _ apart] at place
    cases place.symm.trans place'
    obtain ⟨linked, number⟩ := good.nlink_succ right there
    have real := inode_pos right there
    have inside := good.node_inside there
    have entered : (v.enter i { n with nlink := n.nlink + 1 } d m name).Consistent := by
      refine right.enter m.nlink place dir apart real (good.short inside) linked id (fun isDir => absurd isDir file)
        (fun _ _ isDir => absurd isDir file) ?_ ?_ (Nat.le_succ _)
      · have before : (v.setNode i (some { n with nlink := n.nlink + 1 })).names = v.names + 0 :=
          Nat.add_right_cancel (View.names_setNode inside there { n with nlink := n.nlink + 1 })
        exact Nat.le_of_eq (View.names_enter m.nlink place dir (good.node_inside place) apart
          (good.real_number inside real) before).symm
      · have := right.links there
        dsimp only
        omega
    rw [good.drop_linked right kept there place apart]
    exact entered

theorem mem_dots {de : Dirent} (real : BitVec.ofNat 16 i ≠ 0) (member : de ∈ entries (View.dots i d)) :
    de.inum = BitVec.ofNat 16 i ∨ de.inum = BitVec.ofNat 16 d := by
  have empty : (⟨tDir, 0, 0, 0, []⟩ : Node).IsDir := ⟨rfl, rfl⟩
  have made : ((⟨tDir, 0, 0, 0, []⟩ : Node).link dot i).link dotdot d = ⟨tDir, 0, 0, 0, View.dots i d⟩ :=
    link_dots rfl real
  have data : View.dots i d = (((⟨tDir, 0, 0, 0, []⟩ : Node).link dot i).link dotdot d).data := by rw [made]
  rw [data] at member
  rcases (empty.link_isDir dot i).mem_link member with member | number
  · rcases empty.mem_link member with member | number
    · rw [entries_nil] at member
      cases member
    · exact .inl number
  · exact .inr number

theorem create_consistent {r : Option Nat} (good : Good v 0 ∅ s) (right : v.Consistent)
    (ans : v.create p path type major minor = .ok (r, v')) : v'.Consistent := by
  rcases View.create_ok ans with ⟨rfl, -⟩ | ⟨i, d, m, name, -, walked, place, absent, free, -, rfl⟩
  · exact right
  · obtain ⟨kept, m', place', dir⟩ := good.parent_found right walked
    cases place.symm.trans place'
    obtain ⟨gone, real, inside⟩ := View.freeInode_eq_some free
    have apart : d ≠ i := by
      rintro rfl
      cases gone.symm.trans place
    obtain ⟨linked, number⟩ := good.nlink_succ right place
    have bound := good.node_inside place
    have kind : (View.newNode i d type major minor).type = type := rfl
    have entered : (v.enter i (View.newNode i d type major minor) d
        { m with nlink := if type = tDir then m.nlink + 1 else m.nlink } name).Consistent := by
      refine right.enter _ place dir apart real (good.short inside) (by decide : (1 : BitVec 16) ≠ 0)
        (fun before => ?_) (fun isDir => ?_)
        (fun de member isDir used => ?_) ?_ ?_ ?_
      · split
        · exact linked
        · exact before
      · rw [View.newNode, if_pos (kind.symm.trans isDir), dots_length]
      · have isDir := kind.symm.trans isDir
        rw [View.newNode, if_pos isDir] at member
        rw [if_pos isDir]
        rcases mem_dots (good.real_number inside real) member with number | number
        · rw [number, BitVec.toNat_ofNat, Nat.mod_eq_of_lt (good.short inside)]
          exact .inl rfl
        · rw [number, BitVec.toNat_ofNat, Nat.mod_eq_of_lt (good.short bound)]
          exact .inr ⟨rfl, linked⟩
      · rw [View.names_enter _ place dir bound apart (good.real_number inside real) (View.names_new inside gone _)]
        omega
      · exact Nat.le_add_left 1 _
      · split <;> omega
    have same : (v.enter i (View.newNode i d type major minor) d
      { m with nlink := if type = tDir then m.nlink + 1 else m.nlink } name).drop d =
        v.enter i (View.newNode i d type major minor) d
        { m with nlink := if type = tDir then m.nlink + 1 else m.nlink } name := by
      refine drop_place _ kept place fun zero => ?_
      split at zero
      · exact absurd zero linked
      · exact zero
    rw [← same] at entered
    exact entered

theorem sysCreate_consistent (good : Good v 0 ∅ s) (right : v.Consistent)
    (ans : v.sysCreate p path type major minor = .ok (r, v')) : v'.Consistent := by
  obtain ⟨o, made, -⟩ := View.sysCreate_ok ans
  exact good.create_consistent right made

theorem sysOpen_consistent {omode : BitVec 32} (good : Good v 0 ∅ s) (right : v.Consistent)
    (ans : v.sysOpen p path omode = .ok (r, v')) : v'.Consistent := by
  obtain ⟨o, w, found, ans⟩ := View.sysOpen_ok ans
  have right : w.Consistent := by
    obtain ⟨-, made⟩ | ⟨-, rfl⟩ := View.openInode_ok found
    · exact good.create_consistent right made
    · exact right
  obtain rfl | ⟨-, ofile, f, e, -, opened, rfl⟩ := ans
  · exact right
  · refine ⟨⟨right.tree.root, right.tree.whole, right.tree.entry⟩, right.zero, right.links,
      View.install_tidy right.tidy opened, fun q => ?_⟩
    rw [(w.install_proc p q f).1, (w.install_proc p q f).2]
    exact right.home q

end Good

end MiniOS
