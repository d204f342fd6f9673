import MiniOS.Fs.View
import MiniOS.Fs.NodeSpecs

namespace MiniOS

open Lib Function

section Caches

variable {s : Fs} {k l : Fin ninode} {e : Inode} {i : Nat}

theorem caches_setInode_self : (s.setInode k e).Caches k i ↔ 0 < e.ref ∧ e.inum = i := by
  rw [Fs.Caches, setInode_icache_self]

theorem caches_setInode_of_ne (other : l ≠ k) : (s.setInode k e).Caches l i ↔ s.Caches l i := by
  rw [Fs.Caches, setInode_icache_of_ne other, Fs.Caches]

theorem Fs.Caches.setInode (caches : s.Caches l i) (keep : l = k → 0 < e.ref ∧ e.inum = i) :
    (s.setInode k e).Caches l i := by
  by_cases here : l = k
  · subst here
    exact caches_setInode_self.2 (keep rfl)
  · exact (caches_setInode_of_ne here).2 caches

end Caches

namespace View

variable {v : View} {i j : Nat}

theorem uses_of_target {f : Fin nfile} (here : (v.file f).target = some i) : 0 < v.uses i := by
  have counted : 0 < countAt (fun f => (v.file f).target) i := countAt_pos here
  exact Nat.lt_of_lt_of_le counted (Nat.le_add_right ..)

theorem uses_of_cwd {p : Fin nproc} (here : (v.proc p).cwd = some i) : 0 < v.uses i := by
  have counted : 0 < countAt (fun p => (v.proc p).cwd) i := countAt_pos here
  exact Nat.lt_of_lt_of_le counted (Nat.le_add_left ..)

theorem setNode_node_self (n : Option Node) : (v.setNode i n).node i = n := update_self ..

theorem setNode_node_of_ne (n : Option Node) (other : j ≠ i) : (v.setNode i n).node j = v.node j :=
  update_of_ne other ..

theorem setNode_setNode (n m : Option Node) : (v.setNode i n).setNode i m = v.setNode i m := by
  simp only [setNode, update_idem]

theorem setNode_self : v.setNode i (v.node i) = v := by
  simp only [setNode, update_eq_self]

theorem setNode_dead_of_ne {n : Option Node} (other : j ≠ i) : (v.setNode i n).Dead j ↔ v.Dead j := by
  rw [Dead, Dead, setNode_node_of_ne n other]

end View

namespace Good

variable {v : View} {X : Multiset Handle} {L : Finset Nat} {s : Fs} {k l : Fin ninode} {i : Nat}
  {h : Handle} {n : Node} {L' : Finset Nat} {b : Bool} {err : Stop → Prop}

section

variable (good : Good v X L s)
include good

theorem covered (some : 0 < v.uses i) : ∃ k, s.Caches k i := by
  by_contra none
  have files : countAt (fun f => (v.file f).target) i = 0 :=
    countAt_eq_zero.2 fun f here => none ⟨_, good.target f i here⟩
  have procs : countAt (fun p => (v.proc p).cwd) i = 0 := countAt_eq_zero.2 fun p here =>
    none ⟨_, (good.cwd p i here).choose_spec.2⟩
  rw [View.uses] at some
  omega

theorem inside (caches : s.Caches k i) : i < s.sb.ninodes := by
  rw [good.ninodes, ← caches.2]
  exact ((good.entry k).number caches.1).2

theorem locked_iff (caches : s.Caches k i) : (s.icache k).locked = true ↔ i ∈ L := by
  rw [(good.entry k).locked, caches.2]
  exact ⟨fun both => both.2, fun mem => ⟨caches.1, mem⟩⟩

theorem ref_eq (caches : s.Caches k i) :
    (s.icache k).ref = v.uses i + (X.map Handle.inum).count i := by
  rw [(good.entry k).count caches.1, caches.2]

/-- The inode of a valid entry is allocated, and the entry has its numbers. -/
theorem valid_node (caches : s.Caches k i) (valid : (s.icache k).valid = true) :
    v.node i = some (nodeOf s.block (s.icache k).d) ∧ (s.icache k).d = dinodeOf s.sb s.block i ∧
    (s.icache k).d.type ≠ 0 := by
  obtain ⟨same, type⟩ := (good.entry k).cached caches.1 valid
  rw [caches.2] at same
  refine ⟨?_, same, type⟩
  rw [good.disk.nodes, same]
  exact nodeAt_eq_some.2 ⟨⟨good.inside caches, same ▸ type⟩, rfl⟩

/-- An entry of the cache changes. -/
theorem setEntry {X' : Multiset Handle} {e : Inode} (fits : e.Fits v X' L' s.sb s.block)
    (others : ∀ l, l ≠ k → (s.icache l).Fits v X' L' s.sb s.block)
    (keep : ∀ i, s.Caches k i → 0 < v.uses i → 0 < e.ref ∧ e.inum = i)
    (apart : 0 < e.ref → ∀ l, l ≠ k → ¬s.Caches l e.inum)
    (handle : ∀ h ∈ X', (s.setInode k e).Caches h.ip h.inum ∧
      (h.loaded = true → ((s.setInode k e).icache h.ip).valid = true))
    (held : ∀ i ∈ L', ∃ l, (s.setInode k e).Caches l i) : Good v X' L' (s.setInode k e) where
  disk := good.disk
  ninodes := good.ninodes
  entry l := by
    by_cases here : l = k
    · subst here
      rw [setInode_icache_self]
      exact fits
    · rw [setInode_icache_of_ne here]
      exact others l here
  unique {l l' i} first second := by
    by_cases here : l = k
    · by_cases here' : l' = k
      · rw [here, here']
      · subst here
        obtain ⟨some, rfl⟩ := caches_setInode_self.1 first
        exact absurd ((caches_setInode_of_ne here').1 second) (apart some l' here')
    · by_cases here' : l' = k
      · subst here'
        obtain ⟨some, rfl⟩ := caches_setInode_self.1 second
        exact absurd ((caches_setInode_of_ne here).1 first) (apart some l here)
      · exact good.unique ((caches_setInode_of_ne here).1 first) ((caches_setInode_of_ne here').1 second)
  handle := handle
  held := held
  used := good.used
  file := good.file
  target f i here := by
    have caches := good.target f i here
    exact caches.setInode fun same => keep i (same ▸ caches) (View.uses_of_target here)
  pipe := good.pipe
  proc := good.proc
  cwd p i here := by
    obtain ⟨l, same, caches⟩ := good.cwd p i here
    exact ⟨l, same, caches.setInode fun same => keep i (same ▸ caches) (View.uses_of_cwd here)⟩
  nextpid := good.nextpid

/-- The lock of an inode is taken or released. -/
theorem setLock (caches : s.Caches k i) (lock : b = true ↔ i ∈ L')
    (others : ∀ j, j ≠ i → (j ∈ L' ↔ j ∈ L)) : Good v X L' (s.setInode k { s.icache k with locked := b }) := by
  have same : ∀ {l j}, s.Caches l j → (s.setInode k { s.icache k with locked := b }).Caches l j :=
    fun here => here.setInode fun at_k => at_k ▸ here
  refine good.setEntry ⟨(good.entry k).number, (good.entry k).count, (good.entry k).cached, (good.entry k).live, ?_⟩
    (fun l other => ?_)
    (fun j here _ => here) (fun _ l other here => other (good.unique here ⟨caches.1, rfl⟩))
    (fun h mem => ?_) fun j mem => ?_
  · exact lock.trans ⟨fun mem => ⟨caches.1, caches.2.symm ▸ mem⟩, fun both => caches.2 ▸ both.2⟩
  · refine ⟨(good.entry l).number, (good.entry l).count, (good.entry l).cached, (good.entry l).live,
      (good.entry l).locked.trans ?_⟩
    refine and_congr_right fun some => (others _ fun there => other (good.unique ⟨some, there⟩ caches)).symm
  · refine ⟨same (good.handle h mem).1, fun loaded => ?_⟩
    have valid := (good.handle h mem).2 loaded
    by_cases here : h.ip = k
    · rw [here] at valid ⊢
      simpa only [setInode_icache_self] using valid
    · simpa only [setInode_icache_of_ne here] using valid
  · by_cases here : j = i
    · exact ⟨k, same (here ▸ caches)⟩
    · obtain ⟨l, there⟩ := good.held j ((others j here).1 mem)
      exact ⟨l, same there⟩

theorem lock (caches : s.Caches k i) : Good v X (insert i L) (s.setInode k { s.icache k with locked := true }) :=
  good.setLock caches ⟨fun _ => Finset.mem_insert_self .., fun _ => rfl⟩
  fun j other => by rw [Finset.mem_insert, or_iff_right other]

theorem unlock (caches : s.Caches k i) : Good v X (L.erase i) (s.setInode k { s.icache k with locked := false }) :=
  good.setLock caches ⟨nofun, fun mem => absurd mem (Finset.notMem_erase i L)⟩ fun j other => by
    rw [Finset.mem_erase, and_iff_right other]

theorem not_cached (absent : ∀ l, ¬s.Caches l i) : v.uses i = 0 ∧ i ∉ X.map Handle.inum ∧ i ∉ L := by
  refine ⟨Nat.eq_zero_of_not_pos fun some => ?_, fun mem => ?_, fun mem => ?_⟩
  · obtain ⟨l, here⟩ := good.covered some
    exact absent l here
  · obtain ⟨h, here, rfl⟩ := Multiset.mem_map.1 mem
    exact absent _ (good.handle h here).1
  · obtain ⟨l, here⟩ := good.held i mem
    exact absent l here

/-- The call takes one more reference to an entry. -/
theorem take (caches : s.Caches k i) (loaded : b = true → (s.icache k).valid = true) :
    Good v (⟨k, i, b⟩ ::ₘ X) L (s.setInode k { s.icache k with ref := (s.icache k).ref + 1 }) := by
  have same : ∀ {l j}, s.Caches l j → (s.setInode k { s.icache k with ref := (s.icache k).ref + 1 }).Caches l j :=
    fun here => here.setInode fun at_k => ⟨Nat.succ_pos _, (at_k ▸ here).2⟩
  have valid : ∀ l, ((s.setInode k { s.icache k with ref := (s.icache k).ref + 1 }).icache l).valid =
      (s.icache l).valid := by
    intro l
    by_cases here : l = k
    · rw [here, setInode_icache_self]
    · rw [setInode_icache_of_ne here]
  have entry := good.entry k
  refine good.setEntry ⟨fun _ => entry.number caches.1, fun _ => ?_, fun _ => entry.cached caches.1,
    fun _ => entry.live caches.1, ?_⟩
    (fun l other => ?_) (fun j here _ => ⟨Nat.succ_pos _, here.2⟩)
    (fun _ l other here => other (good.unique here ⟨caches.1, rfl⟩))
    (fun h mem => ?_) fun j mem => ?_
  · rw [Multiset.map_cons, caches.2, Multiset.count_cons_self, good.ref_eq caches, Nat.add_assoc]
  · rw [entry.locked]
    exact and_congr_left fun _ => ⟨fun _ => Nat.succ_pos _, fun _ => caches.1⟩
  · have entry := good.entry l
    refine ⟨entry.number, fun some => ?_, entry.cached, entry.live, entry.locked⟩
    rw [Multiset.map_cons, Multiset.count_cons_of_ne fun there => other (good.unique ⟨some, there⟩ caches)]
    exact entry.count some
  · rcases Multiset.mem_cons.1 mem with rfl | mem
    · exact ⟨same caches, fun here => (valid k).trans (loaded here)⟩
    · exact ⟨same (good.handle h mem).1, fun here => (valid h.ip).trans ((good.handle h mem).2 here)⟩
  · obtain ⟨l, here⟩ := good.held j mem
    exact ⟨l, same here⟩

/-- An unused entry is given to an inode that is not in the cache. -/
theorem fresh (inside : i < v.ninodes) (absent : ∀ l, ¬s.Caches l i) (free : (s.icache k).ref = 0) :
    Good v (⟨k, i, false⟩ ::ₘ X) L
    (s.setInode k { s.icache k with dev := rootdev, inum := i, ref := 1, valid := false }) := by
  obtain ⟨unused, unheld, unlocked⟩ := good.not_cached absent
  have other : ∀ {l j}, s.Caches l j → l ≠ k := by
    rintro l j here rfl
    exact Nat.lt_irrefl 0 (free ▸ here.1)
  have entry := good.entry k
  refine good.setEntry ⟨fun _ => ⟨rfl, inside⟩, fun _ => ?_, fun _ => nofun,
    fun _ some => absurd some (by rw [unused]; decide), ?_⟩
    (fun l distinct => ?_) (fun j here => absurd rfl (other here)) (fun _ l _ => absent l)
    (fun h mem => ?_) fun j mem => ?_
  · rw [Multiset.map_cons, Multiset.count_cons_self, unused, Multiset.count_eq_zero_of_notMem unheld]
  · rw [entry.locked, free]
    exact ⟨fun both => absurd both.1 (Nat.lt_irrefl 0), fun both => absurd both.2 unlocked⟩
  · have entry := good.entry l
    refine ⟨entry.number, fun some => ?_, entry.cached, entry.live, entry.locked⟩
    rw [Multiset.map_cons, Multiset.count_cons_of_ne fun there => absent l ⟨some, there⟩]
    exact entry.count some
  · rcases Multiset.mem_cons.1 mem with rfl | mem
    · exact ⟨caches_setInode_self.2 ⟨Nat.one_pos, rfl⟩, nofun⟩
    · have here := (good.handle h mem).1
      exact ⟨(caches_setInode_of_ne (other here)).2 here, fun loaded => by
        rw [setInode_icache_of_ne (other here)]
        exact (good.handle h mem).2 loaded⟩
  · obtain ⟨l, here⟩ := good.held j mem
    exact ⟨l, (caches_setInode_of_ne (other here)).2 here⟩

/-- If no entry is unused, the cache is full of inodes in use. -/
theorem crowded (full : ∀ k, (s.icache k).ref ≠ 0) : v.Crowded X.card := by
  have numbers : (Finset.univ.image fun k => (s.icache k).inum).card = ninode := by
    rw [Finset.card_image_of_injective, Finset.card_univ, Fintype.card_fin]
    exact fun k l same => good.unique (i := (s.icache l).inum) ⟨Nat.pos_of_ne_zero (full k), same⟩
      ⟨Nat.pos_of_ne_zero (full l), rfl⟩
  refine ⟨(Finset.univ.image fun k => (s.icache k).inum).filter fun i => 0 < v.uses i, ?_,
    fun i mem => (Finset.mem_filter.1 mem).2⟩
  have split := Finset.card_filter_add_card_filter_not (s := Finset.univ.image fun k => (s.icache k).inum) fun i =>
    0 < v.uses i
  have mine : ((Finset.univ.image fun k => (s.icache k).inum).filter fun i => ¬0 < v.uses i).card ≤ X.card := by
    rw [← Multiset.card_map Handle.inum X]
    refine Nat.le_trans (Finset.card_le_card fun i mem => ?_) (Multiset.toFinset_card_le _)
    obtain ⟨mem, unused⟩ := Finset.mem_filter.1 mem
    obtain ⟨k, -, rfl⟩ := Finset.mem_image.1 mem
    have count := (good.entry k).count (Nat.pos_of_ne_zero (full k))
    exact Multiset.mem_toFinset.2 (Multiset.count_pos.1 (by have := Nat.pos_of_ne_zero (full k); omega))
  omega

theorem iget (inside : i < v.ninodes) :
    wp (iget rootdev i) s (fun k t => Good v (⟨k, i, false⟩ ::ₘ X) L t) fun e => e = .panic "iget: no inodes" ∧
    v.Crowded X.card := by
  refine wp_get_seq ?_
  split
  · rename_i k found
    have here := List.find?_some found
    simp only [decide_eq_true_eq] at here
    exact good.take ⟨here.1, here.2.2⟩ fun wrong => by cases wrong
  · rename_i absent
    have absent := List.find?_eq_none.1 absent
    have absent : ∀ l, ¬s.Caches l i := fun l here =>
      absent l (List.mem_finRange l) (decide_eq_true ⟨here.1, ((good.entry l).number here.1).1, here.2⟩)
    split
    · rename_i full
      have full := List.find?_eq_none.1 full
      exact ⟨rfl, good.crowded fun k none => full k (List.mem_finRange k) (decide_eq_true none)⟩
    · rename_i k free
      have free := List.find?_some free
      simp only [decide_eq_true_eq] at free
      exact good.fresh inside absent free

theorem idup {p : Fin nproc} (here : (v.proc p).cwd = some i) :
    ∃ k, (s.proc p).cwd = some k ∧ wp (idup k) s (fun r t => r = k ∧ Good v (⟨k, i, false⟩ ::ₘ X) L t) err := by
  obtain ⟨k, same, caches⟩ := good.cwd p i here
  exact ⟨k, same, rfl, good.take caches nofun⟩

end

theorem mine (good : Good v (⟨k, i, b⟩ ::ₘ X) L s) : s.Caches k i := (good.handle _ (Multiset.mem_cons_self ..)).1

theorem fits_reload (good : Good v (⟨k, i, b⟩ ::ₘ X) L s) (c : Bool) (l : Fin ninode) :
    (s.icache l).Fits v (⟨k, i, c⟩ ::ₘ X) L s.sb s.block := by
  have entry := good.entry l
  exact ⟨entry.number, fun some => by rw [entry.count some, Multiset.map_cons, Multiset.map_cons], entry.cached,
    entry.live, entry.locked⟩

theorem reload {c : Bool} (good : Good v (⟨k, i, b⟩ ::ₘ X) L s) (valid : c = true → (s.icache k).valid = true) :
    Good v (⟨k, i, c⟩ ::ₘ X) L s := by
  refine { good with entry := good.fits_reload c, handle := fun h mem => ?_ }
  rcases Multiset.mem_cons.1 mem with rfl | mem
  · exact ⟨good.mine, valid⟩
  · exact good.handle h (Multiset.mem_cons_of_mem mem)

theorem acquiresleep (good : Good v X L s) (caches : s.Caches k i) (free : i ∉ L) :
    wp (acquiresleep k) s (fun _ t => t = s.setInode k { s.icache k with locked := true }) err := by
  refine wp_inode k (wp_ite (fun taken => absurd ((good.locked_iff caches).1 taken) free) fun _ => rfl)

/-- A call that takes a lock twice waits for ever. -/
theorem acquiresleep_deadlock (good : Good v X L s) (caches : s.Caches k i) (taken : i ∈ L) :
    wp (MiniOS.acquiresleep k) s (fun _ _ => False) fun e => e = .deadlock := by
  refine wp_inode k (wp_ite (fun _ => rfl) fun free => free ((good.locked_iff caches).2 taken))

/-- The entry gets the inode from the disk. -/
theorem load (good : Good v (⟨k, i, b⟩ ::ₘ X) L s) (there : v.node i = some n) :
    Good v (⟨k, i, true⟩ ::ₘ X) L
      (s.setInode k { s.icache k with d := dinodeOf s.sb s.block (s.icache k).inum, valid := true }) := by
  have caches := good.mine
  have entry := good.fits_reload true k
  rw [good.disk.nodes, ← caches.2] at there
  obtain ⟨⟨-, type⟩, -⟩ := nodeAt_eq_some.1 there
  have same : ∀ {l j}, s.Caches l j →
      (s.setInode k { s.icache k with d := dinodeOf s.sb s.block (s.icache k).inum, valid := true }).Caches l j :=
    fun here => here.setInode fun at_k => at_k ▸ here
  refine good.setEntry ⟨entry.number, entry.count, fun _ _ => ⟨rfl, type⟩, fun _ _ _ => rfl, entry.locked⟩
    (fun l _ => good.fits_reload true l) (fun j here _ => here)
    (fun _ l other here => other (good.unique here ⟨caches.1, rfl⟩))
    (fun h mem => ?_) fun j mem => ?_
  · rcases Multiset.mem_cons.1 mem with rfl | mem
    · exact ⟨same caches, fun _ => by rw [setInode_icache_self]⟩
    · refine ⟨same (good.handle h (Multiset.mem_cons_of_mem mem)).1, fun loaded => ?_⟩
      by_cases here : h.ip = k
      · rw [here, setInode_icache_self]
      · rw [setInode_icache_of_ne here]
        exact (good.handle h (Multiset.mem_cons_of_mem mem)).2 loaded
  · obtain ⟨l, here⟩ := good.held j mem
    exact ⟨l, same here⟩

theorem iload (good : Good v (⟨k, i, b⟩ ::ₘ X) L s) :
    wp (iload k) s (fun _ t => (v.node i).isSome ∧ Good v (⟨k, i, true⟩ ::ₘ X) L t)
      fun e => e = .panic "ilock: no type" ∧ v.node i = none := by
  have caches := good.mine
  have inside := good.inside caches
  refine wp_mono (iload_spec good.disk.image.laid (caches.2.symm ▸ inside)) ?_ fun e stopped => ⟨stopped.1, ?_⟩
  · rintro _ _ (⟨valid, rfl⟩ | ⟨-, type, rfl⟩)
    · exact ⟨by rw [(good.valid_node caches valid).1]; rfl, good.reload fun _ => valid⟩
    · have there : v.node i = some (nodeOf s.block (dinodeOf s.sb s.block i)) := by
        rw [good.disk.nodes]
        exact nodeAt_eq_some.2 ⟨⟨inside, caches.2 ▸ type⟩, rfl⟩
      exact ⟨by rw [there]; rfl, good.load there⟩
  · rw [good.disk.nodes, nodeAt_eq_none inside, ← caches.2, stopped.2.2]

/-- `ilock` of an inode whose lock is free. -/
theorem ilock (good : Good v (⟨k, i, b⟩ ::ₘ X) L s) (free : i ∉ L) :
    wp (ilock k) s (fun _ t => (v.node i).isSome ∧ Good v (⟨k, i, true⟩ ::ₘ X) (insert i L) t)
      fun e => e = .panic "ilock: no type" ∧ v.node i = none := by
  have caches := good.mine
  refine wp_inode k (wp_guard (fun none => absurd caches.1 (by omega)) fun _ =>
    wp_seq (good.acquiresleep caches free) ?_)
  rintro _ _ rfl
  exact (good.lock caches).iload

theorem iunlock (good : Good v X L s) (caches : s.Caches k i) (taken : i ∈ L) :
    wp (iunlock k) s (fun _ t => Good v X (L.erase i) t) err := by
  have locked := (good.locked_iff caches).2 taken
  refine wp_inode k (wp_guard (fun wrong => ?_) fun _ => good.unlock caches)
  rcases wrong with free | none
  · rw [locked] at free
    cases free
  · exact absurd caches.1 (by omega)

/-- The call drops a reference. -/
theorem leave (good : Good v (⟨k, i, b⟩ ::ₘ X) L s) (free : i ∉ L) :
    Good v X L (s.setInode k { s.icache k with ref := (s.icache k).ref - 1 }) := by
  have caches := good.mine
  have ref : (s.icache k).ref - 1 = v.uses i + (X.map Handle.inum).count i := by
    rw [good.ref_eq caches, Multiset.map_cons, Multiset.count_cons_self, Nat.add_succ_sub_one]
  have entry := good.entry k
  have unlocked : (s.icache k).locked ≠ true := fun taken => free ((good.locked_iff caches).1 taken)
  have same : ∀ {l j}, s.Caches l j → (j = i → 0 < v.uses i + (X.map Handle.inum).count i) →
      (s.setInode k { s.icache k with ref := (s.icache k).ref - 1 }).Caches l j := by
    intro l j here some
    refine here.setInode fun at_k => ?_
    subst at_k
    exact ⟨Nat.lt_of_lt_of_eq (some (here.2.symm.trans caches.2)) ref.symm, here.2⟩
  refine good.setEntry ⟨fun _ => entry.number caches.1, fun _ => by simp only [caches.2, ref],
    fun _ => entry.cached caches.1,
    fun _ => entry.live caches.1, ?_⟩ (fun l other => ?_) (fun j here some => ?_)
    (fun _ l other here => other (good.unique here ⟨caches.1, rfl⟩)) (fun h mem => ?_) fun j mem => ?_
  · exact ⟨fun taken => absurd taken unlocked, fun both => absurd (caches.2 ▸ both.2) free⟩
  · have entry := good.entry l
    refine ⟨entry.number, fun some => ?_, entry.cached, entry.live, entry.locked⟩
    rw [entry.count some, Multiset.map_cons, Multiset.count_cons_of_ne fun there =>
      other (good.unique ⟨some, there⟩ caches)]
  · refine ⟨?_, here.2⟩
    have number : j = i := here.2.symm.trans caches.2
    simp only [ref]
    rw [number] at some
    omega
  · have there := good.handle h (Multiset.mem_cons_of_mem mem)
    refine ⟨same there.1 fun number => ?_, fun loaded => ?_⟩
    · have counted := Multiset.count_pos.2 (Multiset.mem_map_of_mem Handle.inum mem)
      rw [number] at counted
      omega
    · by_cases here : h.ip = k
      · have valid := there.2 loaded
        rw [here] at valid ⊢
        rw [setInode_icache_self]
        exact valid
      · rw [setInode_icache_of_ne here]
        exact there.2 loaded
  · obtain ⟨l, here⟩ := good.held j mem
    exact ⟨l, same here fun number => absurd (number ▸ mem) free⟩

/-- Inode `i` changes on the disk and in its entry. -/
theorem restore (good : Good v X L s) (caches : s.Caches k i) {block : Nat → Block} {valid : Bool}
    {d : Dinode} {new : Option Node} (disk : Disk s.sb block (update v.node i new) v.room)
    (inodes : ∀ j < s.sb.ninodes, j ≠ i → dinodeOf s.sb block j = dinodeOf s.sb s.block j)
    (cached : valid = true → d = dinodeOf s.sb block i ∧ d.type ≠ 0)
    (live : 0 < v.uses i → (v.setNode i new).Dead i → valid = true) (used : 0 < v.uses i → new.isSome)
    (loaded : ∀ h ∈ X, h.ip = k → h.loaded = true → valid = true) :
    Good (v.setNode i new) X L
      { s with block := block, icache := update s.icache k { s.icache k with valid := valid, d := d } } := by
  have same : ∀ {l j},
      ({ s with block := block, icache := update s.icache k { s.icache k with valid := valid, d := d } } : Fs).Caches
        l j ↔ s.Caches l j := by
    intro l j
    by_cases here : l = k
    · subst here
      simp only [Fs.Caches, update_self]
    · simp only [Fs.Caches, update_of_ne here]
  refine ⟨disk, good.ninodes, fun l => ?_, fun first second => good.unique (same.1 first) (same.1 second),
    fun h mem => ?_,
    fun j mem => ?_, fun j some => ?_, good.file, fun f j here => same.2 (good.target f j here), good.pipe,
    good.proc, fun p j here => ?_,
    good.nextpid⟩
  · by_cases here : l = k
    · subst here
      have entry := good.entry l
      simp only [update_self]
      refine ⟨entry.number, entry.count, fun _ => ?_, fun _ => ?_, entry.locked⟩
      · simp only [caches.2]
        exact cached
      · simp only [caches.2]
        exact live
    · have entry := good.entry l
      have apart : 0 < (s.icache l).ref → (s.icache l).inum ≠ i :=
        fun some number => here (good.unique ⟨some, number⟩ caches)
      simp only [update_of_ne here]
      refine ⟨entry.number, entry.count, fun some valid => ?_, fun some used dead => ?_, entry.locked⟩
      · rw [inodes _ (good.inside ⟨some, rfl⟩) (apart some)]
        exact entry.cached some valid
      · exact entry.live some used ((View.setNode_dead_of_ne (apart some)).1 dead)
  · refine ⟨same.2 (good.handle h mem).1, fun here => ?_⟩
    by_cases at_k : h.ip = k
    · simp only [at_k, update_self]
      exact loaded h mem at_k here
    · simp only [update_of_ne at_k]
      exact (good.handle h mem).2 here
  · obtain ⟨l, here⟩ := good.held j mem
    exact ⟨l, same.2 here⟩
  · by_cases here : j = i
    · subst here
      rw [View.setNode_node_self]
      exact used some
    · rw [View.setNode_node_of_ne _ here]
      exact good.used j some
  · obtain ⟨l, there, here⟩ := good.cwd p j here
    exact ⟨l, there, same.2 here⟩

section

variable (good : Good v (⟨k, i, b⟩ ::ₘ X) L s)
include good

theorem iputLocked :
    wp (iputLocked k) s (fun _ t => if (s.icache k).valid = true ∧ v.Dead i ∧ v.uses i = 0 ∧ i ∉ X.map Handle.inum
      then Good (v.setNode i none) (⟨k, i, false⟩ ::ₘ X) L t else Good v (⟨k, i, b⟩ ::ₘ X) L t) err := by
  have caches := good.mine
  have nlink : (s.icache k).valid = true → ((s.icache k).d.nlink = 0 ↔ v.Dead i) := by
    intro valid
    have there := (good.valid_node caches valid).1
    exact ⟨fun zero => ⟨_, there, zero⟩, fun ⟨n, here, zero⟩ => by cases there.symm.trans here; exact zero⟩
  have last : (s.icache k).ref = 1 ↔ v.uses i = 0 ∧ i ∉ X.map Handle.inum := by
    rw [good.ref_eq caches, Multiset.map_cons, Multiset.count_cons_self, ← Multiset.count_eq_zero]
    omega
  have test : ((s.icache k).valid = true ∧ (s.icache k).d.nlink = 0 ∧ (s.icache k).ref = 1) ↔
      (s.icache k).valid = true ∧ v.Dead i ∧ v.uses i = 0 ∧ i ∉ X.map Handle.inum :=
    and_congr_right fun valid => and_congr (nlink valid) last
  refine wp_inode k (wp_ite (fun freed => ?_) fun kept => ?_)
  · obtain ⟨valid, dead, unused, alone⟩ := test.1 freed
    obtain ⟨-, same, type⟩ := good.valid_node caches valid
    have inside := good.inside caches
    simp only [if_pos (test.1 freed)]
    refine wp_mono (ifree_spec good.disk.image (caches.2.symm ▸ inside) (by rw [caches.2, same]) type) ?_ fun _ => id
    rintro _ _ ⟨block, d, erases, rfl⟩
    rw [caches.2] at erases
    refine (good.reload (c := false) nofun).restore caches
      (good.disk.erase inside (same ▸ type) erases) erases.inodes nofun
      (fun some => absurd unused (Nat.pos_iff_ne_zero.1 some))
      (fun some => absurd unused (Nat.pos_iff_ne_zero.1 some)) fun h mem here => ?_
    rcases Multiset.mem_cons.1 mem with rfl | mem
    · exact nofun
    · have there := (good.handle h (Multiset.mem_cons_of_mem mem)).1.2
      rw [here, caches.2] at there
      exact absurd (Multiset.mem_map.2 ⟨h, mem, there.symm⟩) alone
  · simp only [if_neg fun freed => kept (test.2 freed)]
    exact good

/-- `iput` frees an inode without links whose last reference it drops. -/
theorem iput (free : i ∉ L) :
    wp (iput k) s (fun _ t => if (s.icache k).valid = true ∧ v.Dead i ∧ v.uses i = 0 ∧ i ∉ X.map Handle.inum
      then Good (v.setNode i none) X L t else Good v X L t) err := by
  have caches := good.mine
  refine wp_seq (good.acquiresleep caches free) ?_
  rintro _ _ rfl
  have leaves : ∀ {v' : View} {t : Fs} {b : Bool}, Good v' (⟨k, i, b⟩ ::ₘ X) (insert i L) t →
      Good v' X L ((t.setInode k { t.icache k with locked := false }).setInode k
        { (t.setInode k { t.icache k with locked := false }).icache k with
          ref := ((t.setInode k { t.icache k with locked := false }).icache k).ref - 1 }) := by
    intro v' t b good
    have unlocked := good.unlock good.mine
    rw [Finset.erase_insert free] at unlocked
    exact unlocked.leave free
  refine wp_seq (good.lock caches).iputLocked fun _ t after => wp_modify_seq ?_
  rw [setInode_icache_self] at after
  change (if _ then _ else _)
  split at after
  · rw [if_pos (by assumption)]
    exact leaves after
  · rw [if_neg (by assumption)]
    exact leaves after

/-- A reference is dropped that is not the last one of an inode without links. -/
theorem iput_kept (free : i ∉ L)
    (kept : v.Dead i → 0 < v.uses i ∨ i ∈ X.map Handle.inum) :
    wp (MiniOS.iput k) s (fun _ t => Good v X L t) err := by
  refine wp_mono (good.iput free) (fun _ t after => ?_) fun _ => id
  rwa [if_neg] at after
  rintro ⟨-, dead, unused, alone⟩
  exact (kept dead).elim (fun some => Nat.pos_iff_ne_zero.1 some unused) alone

/-- The only reference of the call to a loaded inode is dropped. -/
theorem iput_drop (free : i ∉ L)
    (loaded : v.Dead i → b = true) (alone : i ∉ X.map Handle.inum) :
    wp (MiniOS.iput k) s (fun _ t => Good (v.drop i) X L t) err := by
  refine wp_mono (good.iput free) (fun _ t after => ?_) fun _ => id
  have test : ((s.icache k).valid = true ∧ v.Dead i ∧ v.uses i = 0 ∧ i ∉ X.map Handle.inum) ↔
      v.Dead i ∧ v.uses i = 0 :=
    ⟨fun all => ⟨all.2.1, all.2.2.1⟩,
      fun both => ⟨(good.handle _ (Multiset.mem_cons_self ..)).2 (loaded both.1), both.1, both.2, alone⟩⟩
  rw [View.drop]
  split at after
  · rwa [if_pos (test.1 (by assumption))]
  · rename_i kept
    rwa [if_neg fun both => kept (test.2 both)]

end

end Good

end MiniOS
