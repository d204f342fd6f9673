import MiniOS.Fs.Paths
import MiniOS.Fs.Directory
import Mathlib.Order.Interval.Finset.Nat

namespace MiniOS

open Lib

/-- The references to inode `i` that the cache counts. -/
def Fs.refs (s : Fs) (i : Nat) : Nat := ∑ k, if (s.icache k).inum = i then (s.icache k).ref else 0

/-- What a path led to: the entry that is returned, and one more reference to its inode. -/
def Yields (s t : Fs) : Option Nat → Option (Fin ninode) → Prop
  | none, none => ∀ j, t.refs j = s.refs j
  | some i, some k => t.Caches k i ∧ ∀ j, t.refs j = s.refs j + if j = i then 1 else 0
  | _, _ => False

namespace Good

variable {v : View} {X : Multiset Handle} {L : Finset Nat} {s t : Fs} {k : Fin ninode} {i c : Nat}
  {b : Bool} {p : Fin nproc}

section

variable (good : Good v X L s)
include good

theorem refs_eq (i : Nat) : s.refs i = v.uses i + (X.map Handle.inum).count i := by
  by_cases cached : ∃ k, s.Caches k i
  · obtain ⟨k, caches⟩ := cached
    rw [Fs.refs, Finset.sum_eq_single_of_mem k (Finset.mem_univ k), if_pos caches.2, good.ref_eq caches]
    intro l _ other
    split
    · rename_i here
      exact Nat.eq_zero_of_not_pos fun some => other (good.unique ⟨some, here⟩ caches)
    · rfl
  · have absent : ∀ k, ¬s.Caches k i := fun k caches => cached ⟨k, caches⟩
    obtain ⟨unused, free, -⟩ := good.not_cached absent
    rw [unused, Multiset.count_eq_zero.2 free, Fs.refs]
    refine Finset.sum_eq_zero fun k _ => ?_
    split
    · rename_i here
      exact Nat.eq_zero_of_not_pos fun some => absent k ⟨some, here⟩
    · rfl

theorem refs_same (good' : Good v X L t) (i : Nat) : t.refs i = s.refs i := by
  rw [good.refs_eq, good'.refs_eq]

theorem refs_cons (good' : Good v (⟨k, i, b⟩ ::ₘ X) L t) (j : Nat) :
    t.refs j = s.refs j + if j = i then 1 else 0 := by
  rw [good.refs_eq, good'.refs_eq, Multiset.map_cons, Multiset.count_cons, Nat.add_assoc]

theorem node_inside {n : Node} (there : v.node i = some n) : i < v.ninodes := by
  rw [good.disk.nodes] at there
  exact good.ninodes ▸ (nodeAt_eq_some.1 there).1.1

/-- The cache has an entry for every inode in use. -/
theorem card_le {S : Finset Nat} (all : ∀ i ∈ S, 0 < v.uses i ∨ i ∈ X.map Handle.inum) : S.card ≤ ninode := by
  have cached : ∀ i ∈ S, ∃ k, s.Caches k i := by
    intro i mem
    by_contra none
    obtain ⟨unused, free, -⟩ := good.not_cached fun k caches => none ⟨k, caches⟩
    rcases all i mem with used | held
    · omega
    · exact free held
  choose! slot caches using cached
  have fits : S.card ≤ (Finset.univ : Finset (Fin ninode)).card :=
    Finset.card_le_card_of_injOn slot (fun _ _ => Finset.mem_coe.2 (Finset.mem_univ _)) fun i here j there same => by
      rw [← (caches i here).2, ← (caches j there).2, same]
  rwa [Finset.card_univ, Fintype.card_fin] at fits

end

end Good

section Resolution

variable {v : View} {X : Multiset Handle} {s t : Fs} {c : Nat} {p : Fin nproc}

/-- The inode at which a path starts. -/
def startOf (c : Nat) (path : Bytes) : Nat := if path.headD 0 = slash then rootino else c

theorem View.Tree.start (tree : v.Tree) (here : (v.node c).isSome) (path : Bytes) :
    ∃ n, v.node (startOf c path) = some n := by
  rw [startOf]
  split
  · obtain ⟨n, there, -⟩ := tree.root
    exact ⟨n, there⟩
  · exact Option.isSome_iff_exists.1 here

theorem View.Tree.namex (tree : v.Tree) (cwd : (v.proc p).cwd = some c) (here : (v.node c).isSome) (path : Bytes) :
    v.namex p path false = .ok ((v.resolve (startOf c path) (components path)).map fun j => (j, [])) ∧
      v.namex p path true = .ok (v.resolveParent (startOf c path) (components path)) := by
  obtain ⟨n, there⟩ := tree.start here path
  have from' : (if path.headD 0 = slash then some rootino else (v.proc p).cwd) = some (startOf c path) := by
    rw [startOf, cwd]
    split <;> rfl
  rw [View.namex, View.namex, from']
  exact tree.walk there (Nat.lt_succ_self _)

theorem Good.Found.yields {found : Option (Nat × Bytes)} {r : Option (Fin ninode × Bytes)} (good : Good v X ∅ s)
    (result : Good.Found v X t found r) :
    Yields s t (found.map Prod.fst) (r.map Prod.fst) ∧ r.map Prod.snd = found.map Prod.snd := by
  match found, r, result with
  | none, none, good' => exact ⟨good.refs_same good', rfl⟩
  | some (j, name), some (l, name'), ⟨same, b, good'⟩ =>
    exact ⟨⟨good'.mine, good.refs_cons good'⟩, congrArg some same⟩

theorem Good.namei (good : Good v X ∅ s) (tree : v.Tree) (cwd : (v.proc p).cwd = some c) (path : Bytes) :
    wp (namei p path) s (fun r t => ∃ r', r = r'.map Prod.fst ∧
        Good.Found v X t ((v.resolve (startOf c path) (components path)).map fun j => (j, [])) r')
      fun e => e = .panic "iget: no inodes" ∧ v.Crowded (X.card + 1) := by
  have whole := (tree.namex cwd (good.used c (View.uses_of_cwd cwd)) path).1
  refine wp_seq (wp_mono (good.namex (tree.walkable good.node_inside) cwd) (fun _ _ => id) fun e stops => ?_)
    fun r t after => ?_
  · rw [whole] at stops
    exact stops.resolve_left nofun
  · obtain ⟨found, same, result⟩ := after
    cases whole.symm.trans same
    exact ⟨r, rfl, result⟩

/-- `namei` looks up the components of the path one after the other, `nameiparent` those before the
last, and they leave the reference counts as they were, apart from the inode that they return. They
panic only if all entries of the cache are in use, counting the one that the walk is at. -/
theorem path_resolution_is_fold (good : Good v X ∅ s) (tree : v.Tree) (cwd : (v.proc p).cwd = some c) (path : Bytes) :
    wp (namei p path) s (fun r t => Yields s t (v.resolve (startOf c path) (components path)) r)
        (fun e => e = .panic "iget: no inodes" ∧ v.Crowded (X.card + 1)) ∧
      wp (nameiparent p path) s
        (fun r t => Yields s t ((v.resolveParent (startOf c path) (components path)).map Prod.fst) (r.map Prod.fst) ∧
          r.map Prod.snd = (v.resolveParent (startOf c path) (components path)).map Prod.snd)
        (fun e => e = .panic "iget: no inodes" ∧ v.Crowded (X.card + 1)) := by
  constructor
  · refine wp_mono (good.namei tree cwd path) ?_ fun _ => id
    rintro _ t ⟨r, rfl, result⟩
    have yields := (result.yields good).1
    rwa [Option.map_map, show Prod.fst ∘ (fun j : Nat => (j, ([] : Bytes))) = id from rfl, Option.map_id] at yields
  · have parent := (tree.namex cwd (good.used c (View.uses_of_cwd cwd)) path).2
    refine wp_mono (good.namex (tree.walkable good.node_inside) cwd) (fun r t after => ?_) fun e stops => ?_
    · obtain ⟨found, same, result⟩ := after
      cases parent.symm.trans same
      exact result.yields good
    · rw [parent] at stops
      exact stops.resolve_left nofun

end Resolution

section FullCache

/-- The root directory with one entry, the name "x" of inode 51. -/
def rootWithX : Node := Node.link ⟨tDir, 0, 0, 1, []⟩ [0x78] 51

/-- The root directory and the empty files 2 to 51. -/
def fiftyFiles (i : Nat) : Option Node :=
  if 2 ≤ i ∧ i < 52 then some ⟨tFile, 0, 0, 1, []⟩ else if i = 1 then some rootWithX else none

theorem Disk.newFile {sb : Superblock} {block : Nat → Block} {node : Nat → Option Node} {i room : Nat}
    (disk : Disk sb block node room) (inside : i < sb.ninodes) (free : node i = none) :
    ∃ block', Disk sb block' (Function.update node i (some ⟨tFile, 0, 0, 1, []⟩)) room := by
  have fresh := disk.alloc inside free (by decide : tFile ≠ 0)
  have written : dinodeOf sb (putInode sb block i (freshDinode tFile)) i = freshDinode tFile := by
    rw [dinodeOf_putInode, Function.update_self]
  have linked := fresh.update (d := { freshDinode tFile with nlink := 1 }) inside (by rw [written]; decide)
    (by decide) (by rw [written])
    (by rw [written])
  rw [Function.update_idem] at linked
  exact ⟨_, linked⟩

theorem emptyRoot_node {i : Nat} (other : i ≠ 1) : nodeAt mkfsSuper emptyRoot i = none := by
  by_cases inside : i < 200
  · have free : ∀ i < 200, i ≠ 1 → (dinodeOf mkfsSuper emptyRoot i).type = 0 := by decide +kernel
    exact (nodeAt_eq_none inside).2 (free i inside other)
  · exact if_neg fun here => inside here.1

theorem fiftyFiles_disk : ∃ block, Disk mkfsSuper block fiftyFiles 0 := by
  obtain ⟨r, u, -, after⟩ := rootLocked_dirAt.dirlink_ends (rootLocked_canLink [0x78] 51)
  rcases after with ⟨_, found, _⟩ | ⟨-, -, block, -, image, nodes⟩
  · rw [lookup_nil] at found
    cases found
  · have few : ∀ m ≤ 50, ∃ block, Disk mkfsSuper block
        (fun i => if 2 ≤ i ∧ i < 2 + m then some ⟨tFile, 0, 0, 1, []⟩ else if i =
          1 then some rootWithX else none) 0 := by
      intro m
      induction m with
      | zero =>
        refine fun _ => ⟨block, image, funext fun i => ?_, Nat.zero_le _⟩
        have stored : nodeAt mkfsSuper block = Function.update (nodeAt mkfsSuper emptyRoot) 1 (some rootWithX) :=
          nodes
        rw [stored, if_neg (by omega), Function.update_apply]
        refine ite_congr rfl (fun _ => rfl) fun other => (emptyRoot_node other).symm
      | succ m ih =>
        intro le
        obtain ⟨block, disk⟩ := ih (Nat.le_of_succ_le le)
        obtain ⟨block', disk'⟩ := disk.newFile (i := 2 + m) (Nat.lt_of_lt_of_le (by omega : 2 + m < 52) (by decide))
          (by rw [if_neg (by omega), if_neg (by omega)])
        refine ⟨block', ?_⟩
        convert disk' using 1
        funext i
        rw [Function.update_apply]
        by_cases here : i = 2 + m
        · rw [if_pos here, if_pos (by omega)]
        · rw [if_neg here]
          exact if_congr (by omega) rfl rfl
    exact few 50 Nat.le.refl

/-- A process in the root directory and `m` open files, the files 2, 3 and so on. -/
def opensFirst (m : Nat) (node : Nat → Option Node) (room : Nat) : View where
  ninodes := 200
  room := room
  node := node
  file f := ⟨if f < m then .inode else .none, if f < m then 1 else 0, true, false, 0, f + 2, 0⟩
  pipe _ := none
  proc p := ⟨if p = 0 then .runnable else .unused, 0, fun _ => none, if p = 0 then some 1 else none⟩
  nextpid := 1

/-- The root directory and the open files are in the first entries of the cache. -/
def cachesFirst (m : Nat) (block : Nat → Block) : Fs where
  sb := mkfsSuper
  block := block
  icache k := ⟨rootdev, k + 1, if k ≤ m then 1 else 0, false, false, freshDinode 0⟩
  ftable f := ⟨if f < m then .inode else .none, if f < m then 1 else 0, true, false, 0, Fin.ofNat ninode (f + 1), 0⟩
  pipe _ := none
  proc p := ⟨if p = 0 then .runnable else .unused, 0, fun _ => none, if p = 0 then some 0 else none⟩
  nextpid := 1
  console _ := none

section Opens

variable {m i room : Nat} {node : Nat → Option Node}

theorem opensFirst_target {f : Fin nfile} : ((opensFirst m node room).file f).target = some i ↔
    f < m ∧ i = f + 2 := by
  by_cases few : f.val < m
  · simp [opensFirst, Opened.target, few, eq_comm]
  · simp [opensFirst, Opened.target, few]

theorem opensFirst_cwd {p : Fin nproc} : ((opensFirst m node room).proc p).cwd = some i ↔ p = 0 ∧ i = 1 := by
  by_cases first : p = 0
  · simp [opensFirst, first, eq_comm]
  · simp [opensFirst, first]

theorem opensFirst_uses (few : m < ninode) : (opensFirst m node room).uses i = if 1 ≤ i ∧
    i ≤ m + 1 then 1 else 0 := by
  have most : m < 50 := few
  rw [View.uses]
  by_cases root : i = 1
  · have files : countAt (fun f => ((opensFirst m node room).file f).target) i =
        0 := countAt_eq_zero.2 fun f here => by
      have := (opensFirst_target.1 here).2
      omega
    have procs : countAt (fun p => ((opensFirst m node room).proc p).cwd) i = 1 :=
      countAt_eq_one (opensFirst_cwd.2 ⟨rfl, root⟩) fun p here => (opensFirst_cwd.1 here).1
    rw [files, procs, if_pos (by omega)]
  · have procs : countAt (fun p => ((opensFirst m node room).proc p).cwd) i = 0 :=
      countAt_eq_zero.2 fun p here => root (opensFirst_cwd.1 here).2
    rw [procs, Nat.add_zero]
    split
    · rename_i inside
      have bound : i - 2 < nfile := Nat.lt_of_lt_of_le (by omega : i - 2 < 50) (by decide)
      refine countAt_eq_one (i := ⟨i - 2, bound⟩) (opensFirst_target.2 ⟨by dsimp only; omega, by dsimp only; omega⟩)
        fun f here => Fin.ext ?_
      have := (opensFirst_target.1 here).2
      dsimp only
      omega
    · rename_i outside
      refine countAt_eq_zero.2 fun f here => outside ?_
      have := opensFirst_target.1 here
      omega

theorem cachesFirst_good {block : Nat → Block} (disk : Disk mkfsSuper block node room) (few : m < ninode)
    (linked : ∀ i, 1 ≤ i → i ≤ m + 1 → ∃ n, node i = some n ∧ n.nlink ≠ 0) :
    Good (opensFirst m node room) 0 ∅ (cachesFirst m block) where
  disk := disk
  ninodes := rfl
  entry k := by
    have inside : k.val < 50 := k.isLt
    have bound : k.val + 1 < 200 := by omega
    refine ⟨fun _ => ⟨rfl, bound⟩, fun busy => ?_, fun _ => nofun, fun _ used dead => ?_,
      ⟨nofun, fun held => absurd held.2 (Finset.notMem_empty _)⟩⟩
    · have first : k.val ≤ m := by
        by_contra later
        have busy : 0 < if k.val ≤ m then 1 else 0 := busy
        rw [if_neg later] at busy
        exact absurd busy (Nat.lt_irrefl 0)
      show (if k.val ≤ m then 1 else 0) = (opensFirst m node room).uses (k.val + 1) + 0
      rw [opensFirst_uses few, if_pos first, if_pos (by omega)]
    · obtain ⟨n, there, gone⟩ := dead
      have used : 0 < (opensFirst m node room).uses (k.val + 1) := used
      rw [opensFirst_uses few] at used
      split at used
      · obtain ⟨n', there', some⟩ := linked (k + 1) (by omega) (by omega)
        cases there.symm.trans there'
        exact absurd gone some
      · exact absurd used (Nat.lt_irrefl 0)
  unique {k l i} first second := by
    have same : k.val + 1 = l.val + 1 := first.2.trans second.2.symm
    exact Fin.ext (Nat.succ.inj same)
  handle := nofun
  held i mem := absurd mem (Finset.notMem_empty i)
  used i some := by
    have most : m < 50 := few
    rw [opensFirst_uses few] at some
    split at some
    · obtain ⟨n, there, -⟩ := linked i (by omega) (by omega)
      exact Option.isSome_iff_exists.2 ⟨n, there⟩
    · exact absurd some (Nat.lt_irrefl 0)
  file _ := rfl
  target f i here := by
    have most : m < 50 := few
    obtain ⟨inside, rfl⟩ := opensFirst_target.1 here
    have slot : (Fin.ofNat ninode (f + 1)).val = f + 1 := Nat.mod_eq_of_lt (by rw [show ninode = 50 from rfl]; omega)
    simp only [Fs.Caches, cachesFirst, slot, and_true]
    rw [if_pos (by omega)]
    decide
  pipe := rfl
  proc p := ⟨rfl, rfl, rfl⟩
  cwd p i here := by
    obtain ⟨rfl, rfl⟩ := opensFirst_cwd.1 here
    exact ⟨0, rfl, Nat.zero_lt_one, rfl⟩
  nextpid := rfl

end Opens

theorem fiftyFiles_linked {i : Nat} (low : 1 ≤ i) (high : i < 52) : ∃ n, fiftyFiles i = some n ∧ n.nlink ≠ 0 := by
  rw [fiftyFiles]
  split
  · exact ⟨_, rfl, by decide⟩
  · rw [if_pos (by omega)]
    exact ⟨_, rfl, by decide⟩

theorem rootWithX_lookup : rootWithX.IsDir ∧
    ∀ name, lookup rootWithX.data name = if key name = key [0x78] then some (51, 0) else none := by
  obtain ⟨dir, -, lookups⟩ := rootLocked_dirAt.dir.link distinct_nil (lookup_nil : lookup [] [0x78] = none)
    (by decide : 0 < 51) (by decide)
  refine ⟨dir, fun name => ?_⟩
  rw [rootWithX, lookups, lookup_nil]
  rfl

theorem fiftyFiles_tree (m : Nat) : (opensFirst m fiftyFiles 0).Tree := by
  have onlyRoot : ∀ {i n}, fiftyFiles i = some n → n.type = tDir → n = rootWithX := by
    intro i n there dir
    rw [fiftyFiles] at there
    split at there
    · cases there
      exact absurd dir (by decide)
    · split at there
      · exact (Option.some.inj there).symm
      · cases there
  refine ⟨fiftyFiles_linked (i := 1) (by decide) (by decide), fun there dir => ?_, fun there dir member _ => ?_⟩
  · rw [onlyRoot there dir]
    exact rootWithX_lookup.1.whole
  · rw [onlyRoot there dir, rootWithX, link_empty rfl, entries_toBytes _ (strncpy_length ..),
      List.mem_singleton] at member
    obtain ⟨n, there', linked⟩ := fiftyFiles_linked (i := 51) (by decide) (by decide)
    subst member
    exact ⟨n, there', .inr linked⟩

theorem resolve_x (m : Nat) : (opensFirst m fiftyFiles 0).resolve (startOf 1 [0x78, 0])
    (components [0x78, 0]) = some 51 := by
  have split : components [0x78, 0] = [[0x78]] := by decide
  have found : (opensFirst m fiftyFiles 0).child 1 [0x78] = some 51 := by
    have there : (opensFirst m fiftyFiles 0).node 1 = some rootWithX := rfl
    simp only [View.child, there, rootWithX_lookup.1.type, if_true, rootWithX_lookup.2]
    rfl
  rw [split, show startOf 1 [0x78, 0] = 1 from by decide, View.resolve_cons, found]
  rfl

/-- With one inode in use the path "x" leads to its inode. -/
theorem path_resolution_of_x : ∃ block k t, namei 0 [0x78, 0] (cachesFirst 0 block) = .ok (some k, t) ∧
    (t.icache k).inum = 51 := by
  obtain ⟨block, disk⟩ := fiftyFiles_disk
  have good := cachesFirst_good disk (by decide : 0 < ninode) fun i low high => fiftyFiles_linked low (by omega)
  have resolution :=
    (path_resolution_is_fold good (fiftyFiles_tree 0)
      (opensFirst_cwd.2 ⟨rfl, rfl⟩ : ((opensFirst 0 fiftyFiles 0).proc 0).cwd = some 1) [0x78, 0]).1
  rw [resolve_x] at resolution
  obtain ⟨r, t, returns, yields⟩ := wp_ends (wp_mono resolution (fun _ _ => id) fun e full => by
    obtain ⟨S, large, used⟩ := full.2
    have one : S ⊆ {1} := fun i mem => by
      have some := used i mem
      rw [opensFirst_uses (by decide)] at some
      split at some
      · exact Finset.mem_singleton.2 (by omega)
      · exact absurd some (Nat.lt_irrefl 0)
    have small := Finset.card_le_card one
    exact absurd large (by simp only [Multiset.card_zero, Finset.card_singleton, ninode] at small ⊢; omega))
  match r, yields with
  | some k, yields => exact ⟨block, k, t, returns, yields.1.2⟩

/-- No more than 50 inodes are in the cache. -/
theorem opensFirst_full {t : Fs} {k : Fin ninode} {b : Bool} :
    ¬Good (opensFirst 49 fiftyFiles 0) (⟨k, 51, b⟩ ::ₘ 0) ∅ t := by
  intro good
  have all : ∀ i ∈ Finset.Icc 1 51, 0 < (opensFirst 49 fiftyFiles 0).uses i ∨
      i ∈ (⟨k, 51, b⟩ ::ₘ (0 : Multiset Handle)).map Handle.inum := by
    intro i mem
    have range := Finset.mem_Icc.1 mem
    by_cases last : i = 51
    · exact .inr (Multiset.mem_map.2 ⟨_, Multiset.mem_cons_self .., last.symm⟩)
    · rw [opensFirst_uses (by decide), if_pos (by omega)]
      exact .inl Nat.zero_lt_one
  exact absurd (good.card_le all) (by decide)

/-- With 50 inodes in use the lookup of the name "x" in the root directory panics, although the
directory has the name. -/
theorem namei_full_cache : ∃ v s, Good v 0 ∅ s ∧ v.Tree ∧ (v.proc 0).cwd = some 1 ∧
    v.resolve (startOf 1 [0x78, 0]) (components [0x78, 0]) = some 51 ∧
    namei 0 [0x78, 0] s = .error (.panic "iget: no inodes") := by
  obtain ⟨block, disk⟩ := fiftyFiles_disk
  have good := cachesFirst_good disk (by decide : 49 < ninode) fun i low high => fiftyFiles_linked low (by omega)
  have tree := fiftyFiles_tree 49
  have cwd : ((opensFirst 49 fiftyFiles 0).proc 0).cwd = some 1 := opensFirst_cwd.2 ⟨rfl, rfl⟩
  refine ⟨_, _, good, tree, cwd, resolve_x 49, ?_⟩
  have resolution := good.namei tree cwd [0x78, 0]
  rw [resolve_x] at resolution
  have stops : wp (namei 0 [0x78, 0]) (cachesFirst 49 block) (fun _ _ => False) fun e => e =
      .panic "iget: no inodes" := by
    refine wp_mono resolution (fun r t after => ?_) fun e full => full.1
    obtain ⟨r', -, found⟩ := after
    match r', found with
    | some _, ⟨_, _, good⟩ => exact opensFirst_full good
  obtain ⟨e, stopped, rfl⟩ := wp_stops stops
  exact stopped

end FullCache

end MiniOS
