import MiniOS.Fs.DirOps

namespace MiniOS

open Lib

namespace View

variable (v : View)

/-- A reference to inode `i` can be dropped while the references `X` are held, and
the inode stays. -/
def Keeps (X : Multiset Handle) (i : Nat) : Prop := v.Dead i → 0 < v.uses i ∨ i ∈ X.map Handle.inum

/-- The directories consist of whole entries, their entries are inodes of the disk,
and no inode is freed because a path leads through it. -/
structure Walkable (X : Multiset Handle) : Prop where
  root : rootino < v.ninodes
  start : v.Keeps X rootino
  whole : ∀ {i n}, v.node i = some n → n.type = tDir → n.data.length % 16 = 0
  range : ∀ {i n name j off}, v.node i = some n → n.type = tDir → lookup n.data name = some (j, off) → j < v.ninodes
  kept : ∀ {i n name j off}, v.node i = some n → n.type = tDir → lookup n.data name = some (j, off) → j = i ∨
    v.Keeps X j

/-- The loop of `namex` over the nodes. -/
def walk (parent : Bool) : Nat → Nat → Bytes → Except Stop (Option (Nat × Bytes))
  | 0, _, _ => .error .endlessLoop
  | rounds + 1, i, path =>
    match skipelem path with
    | none => .ok (if parent then none else some (i, []))
    | some (name, path) =>
      match v.node i with
      | none => .error (.panic "ilock: no type")
      | some n =>
        if n.type ≠ tDir then .ok none
        else if parent ∧ path.headD 0 = 0 then .ok (some (i, name))
        else match lookup n.data name with
          | none => .ok none
          | some (j, _) => walk parent rounds j path

/-- `namex` over the nodes. -/
def namex (p : Fin nproc) (path : Bytes) (parent : Bool) : Except Stop (Option (Nat × Bytes)) :=
  match if path.headD 0 = slash then some rootino else (v.proc p).cwd with
  | none => .error (.panic "trap")
  | some i => v.walk parent (path.length + 1) i path

variable {v} {X : Multiset Handle} {parent : Bool} {rounds i j : Nat} {path name : Bytes} {n : Node} {p : Fin nproc}

theorem Walkable.isDir (walkable : v.Walkable X) (there : v.node i = some n) (dir : n.type = tDir) : n.IsDir :=
  ⟨dir, walkable.whole there dir⟩

theorem keeps_of_uses (used : 0 < v.uses i) : v.Keeps X i := fun _ => .inl used

theorem Keeps.cons (kept : v.Keeps X i) (h : Handle) : v.Keeps (h ::ₘ X) i := fun dead =>
  (kept dead).imp id fun mem => by
    rw [Multiset.map_cons]
    exact Multiset.mem_cons_of_mem mem

theorem Walkable.next (walkable : v.Walkable X) (kept : v.Keeps X i) {off : Nat} (there : v.node i = some n)
    (dir : n.type = tDir) (found : lookup n.data name = some (j, off)) : v.Keeps X j := by
  rcases walkable.kept there dir found with rfl | kept
  · exact kept
  · exact kept

/-- The inode that a path leads to is kept, and before the last element it is a directory. -/
theorem walk_found (walkable : v.Walkable X) (kept : v.Keeps X i)
    (found : v.walk parent rounds i path = .ok (some (j, name))) :
    v.Keeps X j ∧ (parent = true → ∃ n, v.node j = some n ∧ n.type = tDir) := by
  induction rounds generalizing i path with
  | zero => cases found
  | succ rounds ih =>
    rw [walk] at found
    split at found
    · split at found
      · cases found
      · cases found
        exact ⟨kept, fun right => absurd right (by assumption)⟩
    · split at found
      · cases found
      · rename_i n there
        split at found
        · cases found
        · rename_i dir
          split at found
          · cases found
            exact ⟨kept, fun _ => ⟨n, there, not_not.1 dir⟩⟩
          · split at found
            · cases found
            · exact ih (walkable.next kept there (not_not.1 dir) (by assumption)) found

theorem namex_found (walkable : v.Walkable X) (found : v.namex p path parent = .ok (some (j, name))) :
    v.Keeps X j ∧ (parent = true → ∃ n, v.node j = some n ∧ n.type = tDir) := by
  rw [namex] at found
  split at found
  · cases found
  · rename_i i start
    refine walk_found walkable ?_ found
    split at start
    · cases start
      exact walkable.start
    · exact keeps_of_uses (uses_of_cwd start)

end View

namespace Good

variable {v : View} {X : Multiset Handle} {L : Finset Nat} {s : Fs} {k : Fin ninode} {i : Nat}
  {b parent : Bool} {rounds : Nat} {path : Bytes} {p : Fin nproc} {err : Stop → Prop}

theorem swap {a c : Handle} (good : Good v (a ::ₘ c ::ₘ X) L s) : Good v (c ::ₘ a ::ₘ X) L s :=
  Multiset.cons_swap a c X ▸ good

/-- The lock that was taken last is released. -/
theorem iunlock_own (good : Good v (⟨k, i, b⟩ ::ₘ X) (insert i L) s) (free : i ∉ L) :
    wp (MiniOS.iunlock k) s (fun _ t => Good v (⟨k, i, b⟩ ::ₘ X) L t) err := by
  refine wp_mono (good.iunlock good.mine (Finset.mem_insert_self i L)) (fun _ t good => ?_) fun _ => id
  rwa [Finset.erase_insert free] at good

/-- The lock and the reference are dropped, and the inode stays. -/
theorem iunlockput_kept (good : Good v (⟨k, i, b⟩ ::ₘ X) (insert i L) s) (free : i ∉ L) (kept : v.Keeps X i) :
    wp (iunlockput k) s (fun _ t => Good v X L t) err :=
  wp_seq (good.iunlock_own free) fun _ _ good => good.iput_kept free kept

/-- What a walk found, in the view and in the state. -/
def Found (v : View) (X : Multiset Handle) (t : Fs) : Option (Nat × Bytes) → Option (Fin ninode × Bytes) → Prop
  | none, none => Good v X ∅ t
  | some (j, name), some (l, name') => name' = name ∧ ∃ b, Good v (⟨l, j, b⟩ ::ₘ X) ∅ t
  | _, _ => False

theorem namexLoop (good : Good v (⟨k, i, b⟩ ::ₘ X) ∅ s) (walkable : v.Walkable X) (kept : v.Keeps X i) :
    wp (namexLoop parent rounds k path) s (fun r t => ∃ found, v.walk parent rounds i path = .ok found ∧
      Found v X t found r)
      fun e => v.walk parent rounds i path = .error e ∨ e = .panic "iget: no inodes" ∧ v.Crowded (X.card + 1) := by
  induction rounds generalizing s k i b path with
  | zero => exact .inl rfl
  | succ rounds ih =>
    rw [MiniOS.namexLoop, View.walk]
    cases split : skipelem path with
    | none =>
      refine wp_ite (fun last => ?_) fun last => ?_
      · exact wp_seq (good.iput_kept (Finset.notMem_empty i) kept) fun _ _ good =>
          ⟨_, rfl, by rw [if_pos last]; exact good⟩
      · exact ⟨_, rfl, by rw [if_neg last]; exact ⟨rfl, b, good⟩⟩
    | some elem =>
      obtain ⟨name, rest⟩ := elem
      refine wp_seq (wp_mono (good.ilock (Finset.notMem_empty i)) (fun _ _ => id) fun e gone => .inl ?_)
        fun _ t ends => ?_
      · simp only [gone.2, gone.1]
      · obtain ⟨there, good⟩ := ends
        obtain ⟨n, there⟩ := Option.isSome_iff_exists.1 there
        have free := Finset.notMem_empty i
        have type := good.type_eq (Multiset.mem_cons_self ..) there
        simp only [there]
        refine wp_inode k ?_
        rw [type]
        refine wp_ite (fun file => ?_) fun dir => ?_
        · exact wp_seq (good.iunlockput_kept free kept) fun _ t good => ⟨none, if_pos file, good⟩
        · simp only [if_neg dir]
          refine wp_ite (fun last => ?_) fun last => ?_
          · exact wp_seq (good.iunlock_own free) fun _ t good => ⟨some (i, name), if_pos last, rfl, true, good⟩
          · simp only [if_neg last]
            have isDir := walkable.isDir there (not_not.1 dir)
            refine wp_seq (wp_mono (good.dirlookup (Multiset.mem_cons_self ..) there isDir name
              fun j off found => walkable.range there isDir.type found) (fun _ _ => id) fun e full =>
                .inr ⟨full.2.1, ?_⟩) ?_
            · have crowded := full.2.2
              rwa [Multiset.card_cons] at crowded
            · cases look : lookup n.data name with
              | none =>
                rintro _ t ⟨rfl, rfl⟩
                exact wp_seq (good.iunlockput_kept free kept) fun _ t good => ⟨none, rfl, good⟩
              | some found =>
                obtain ⟨j, off⟩ := found
                rintro _ t ⟨l, rfl, good⟩
                refine wp_seq (good.swap.iunlockput_kept free (kept.cons _)) fun _ t good => ?_
                exact ih good (walkable.next kept there isDir.type look)

theorem namex (good : Good v X ∅ s) (walkable : v.Walkable X) {c : Nat} (here : (v.proc p).cwd = some c) :
    wp (namex p path parent) s (fun r t => ∃ found, v.namex p path parent = .ok found ∧ Found v X t found r)
      fun e => v.namex p path parent = .error e ∨ e = .panic "iget: no inodes" ∧ v.Crowded (X.card + 1) := by
  by_cases absolute : path.headD 0 = slash
  · have start : v.namex p path parent = v.walk parent (path.length + 1) rootino path := by
      rw [View.namex, if_pos absolute]
    rw [start]
    have first : wp (namexStart p path) s (fun k t => Good v (⟨k, rootino, false⟩ ::ₘ X) ∅ t)
        fun e => v.walk parent (path.length + 1) rootino path = .error e ∨ e = .panic "iget: no inodes" ∧
        v.Crowded (X.card + 1) := by
      rw [namexStart, if_pos absolute]
      exact wp_mono (good.iget walkable.root) (fun _ _ => id) fun e full => .inr ⟨full.1, full.2.mono (Nat.le_succ _)⟩
    exact wp_seq first fun k t good => good.namexLoop walkable walkable.start
  · have start : v.namex p path parent = v.walk parent (path.length + 1) c path := by
      rw [View.namex, if_neg absolute, here]
    rw [start]
    obtain ⟨k, cwd, dup⟩ := good.idup (p := p) here
    have first : wp (namexStart p path) s (fun k t => Good v (⟨k, c, false⟩ ::ₘ X) ∅ t)
        fun e => v.walk parent (path.length + 1) c path = .error e ∨ e = .panic "iget: no inodes" ∧
        v.Crowded (X.card + 1) := by
      rw [namexStart, if_neg absolute]
      refine wp_seq (wp_cwd (fun none => absurd (cwd.symm.trans none) nofun) fun ip there => ?_)
        fun ip t first => first
      cases cwd.symm.trans there
      exact wp_mono dup (fun _ _ after => by rw [after.1]; exact after.2) fun _ => id
    exact wp_seq first fun k t good => good.namexLoop walkable (View.keeps_of_uses (View.uses_of_cwd here))

end Good

end MiniOS
