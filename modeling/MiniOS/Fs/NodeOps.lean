import Mathlib.Data.List.Find
import MiniOS.Fs.Good

namespace MiniOS

open Lib Function

namespace Good

variable {v : View} {X : Multiset Handle} {L : Finset Nat} {s : Fs} {k : Fin ninode} {i : Nat}
  {n : Node} {err : Stop → Prop} {off : Nat} {src : Bytes} {type : BitVec 16}

section

variable (good : Good v X L s)
include good

section

variable (mem : ⟨k, i, true⟩ ∈ X)
include mem

/-- What the call knows about an inode that it has loaded. -/
theorem loaded (there : v.node i = some n) :
    s.Caches k i ∧ (s.icache k).valid = true ∧ (s.icache k).d = dinodeOf s.sb s.block i ∧ (s.icache k).d.type ≠ 0 ∧
      nodeOf s.block (s.icache k).d = n := by
  obtain ⟨caches, valid⟩ := good.handle _ mem
  obtain ⟨here, same, type⟩ := good.valid_node caches (valid rfl)
  exact ⟨caches, valid rfl, same, type, Option.some.inj (here.symm.trans there)⟩

theorem type_eq (there : v.node i = some n) : (s.icache k).d.type = n.type :=
  congrArg Node.type (good.loaded mem there).2.2.2.2

theorem nlink_eq (there : v.node i = some n) : (s.icache k).d.nlink = n.nlink :=
  congrArg Node.nlink (good.loaded mem there).2.2.2.2

theorem size_eq (there : v.node i = some n) :
    (s.icache k).d.size.toNat = n.data.length := by
  rw [← (good.loaded mem there).2.2.2.2, nodeOf, contents_length]

theorem has : s.Has k i := by
  obtain ⟨caches, valid⟩ := good.handle _ mem
  obtain ⟨-, same, type⟩ := good.valid_node caches (valid rfl)
  exact ⟨caches.2, good.inside caches, same, type⟩

/-- The numbers of an inode change in the cache and on the disk. -/
theorem update (there : v.node i = some n) (major minor nlink : BitVec 16 → BitVec 16) :
    wp (do modifyDinode k fun d => { d with major := major d.major, minor := minor d.minor, nlink := nlink d.nlink }
           iupdate k) s (fun _ t => Good (v.setNode i
        (some { n with major := major n.major, minor := minor n.minor, nlink := nlink n.nlink })) X L t) err := by
  obtain ⟨caches, valid, same, real, rfl⟩ := good.loaded mem there
  refine wp_mono (update_spec good.disk.image.laid (caches.2.symm ▸ good.inside caches) _) ?_ fun _ => id
  rintro _ _ rfl
  rw [caches.2]
  refine good.restore caches (good.disk.update (good.inside caches) (same ▸ real) real (by rw [same]) (by rw [same]))
    (fun j _ other => ?_) (fun _ => ⟨?_, real⟩) (fun _ _ => valid) (fun _ => rfl) fun _ _ _ _ => valid
  · rw [dinodeOf_putInode, update_of_ne other]
  · rw [dinodeOf_putInode, update_self]

/-- `writei` that starts behind the end or would make the file too large. -/
theorem writei_refused (there : v.node i = some n) (file : n.type ≠ tDev)
    (wrong : n.data.length < off ∨ (off + src.length) % 2 ^ 32 < off ∨ 140 * 512 < off + src.length) :
    wp (writei k src off) s (fun r t => r = none ∧ t = s) err := by
  rw [good.disk.nodes] at there
  exact writei_refused_spec (good.has mem) there file wrong

/-- `writei` of bytes that start inside of the file. -/
theorem writei (there : v.node i = some n) (file : n.type ≠ tDev)
    (start : off ≤ n.data.length) (small : off + src.length ≤ 140 * 512) :
    wp (writei k src off) s (fun r t => r = some src.length ∧ Good (v.setNode i (some (n.write off src))) X L t)
      fun e => e = .panic "balloc: out of blocks" ∧ v.room < (v.setNode i (some (n.write off src))).blocks := by
  obtain ⟨caches, valid, -, real, rfl⟩ := good.loaded mem there
  refine wp_mono (writei_spec good.disk (good.has mem) there file start small) ?_ fun e full => ?_
  · rintro _ _ ⟨rfl, block, rfl, disk, others⟩
    refine ⟨rfl, good.restore caches disk others (fun _ => ⟨rfl, ?_⟩) (fun _ _ => valid)
      (fun _ => rfl) fun _ _ _ _ => valid⟩
    have after := congrFun disk.nodes i
    rw [update_self, eq_comm] at after
    exact (nodeAt_eq_some.1 after).1.2
  · rw [good.ninodes] at full
    exact full

end

/-- A free inode gets a type on the disk. -/
theorem allocNode (inside : i < s.sb.ninodes) (free : v.node i = none) (real : type ≠ 0) :
    Good (v.setNode i (some ⟨type, 0, 0, 0, []⟩)) X L
    { s with block := putInode s.sb s.block i (freshDinode type) } := by
  have unused : v.uses i = 0 := by
    by_contra some
    have there := good.used i (Nat.pos_of_ne_zero some)
    rw [free] at there
    cases there
  refine { good with disk := good.disk.alloc inside free real, entry := fun l => ?_, used := fun j some => ?_ }
  · have entry := good.entry l
    refine ⟨entry.number, entry.count, fun some valid => ?_, fun some used dead => ?_, entry.locked⟩
    · have other : (s.icache l).inum ≠ i := by
        rintro rfl
        have there := (good.valid_node ⟨some, rfl⟩ valid).1
        rw [free] at there
        cases there
      rw [dinodeOf_putInode, update_of_ne other]
      exact entry.cached some valid
    · have other : (s.icache l).inum ≠ i := by
        rintro rfl
        exact Nat.pos_iff_ne_zero.1 used unused
      exact entry.live some used ((View.setNode_dead_of_ne other).1 dead)
  · by_cases here : j = i
    · rw [here, View.setNode_node_self]
      rfl
    · rw [View.setNode_node_of_ne _ here]
      exact good.used j some

theorem ialloc (real : type ≠ 0) :
    wp (ialloc rootdev type) s
      (fun k t => ∃ i, v.freeInode = some i ∧ Good (v.setNode i (some ⟨type, 0, 0, 0, []⟩)) (⟨k, i, false⟩ ::ₘ X) L t)
      fun e => e = .panic "ialloc: no inodes" ∧ v.freeInode = none ∨ e = .panic "iget: no inodes" ∧
      v.Crowded X.card := by
  have free : ∀ i < s.sb.ninodes, v.node i = none ↔ (dinodeOf s.sb s.block i).type = 0 := by
    intro i inside
    rw [good.disk.nodes, nodeAt_eq_none inside]
  have first : v.freeInode = (List.range' 1 (s.sb.ninodes - 1)).find? fun i =>
      (dinodeOf s.sb s.block i).type = 0 := by
    rw [View.freeInode, ← good.ninodes]
    refine List.find?_congr fun i mem => ?_
    have := List.mem_range'_1.1 mem
    rw [decide_eq_decide, free i (by omega)]
  rw [first]
  refine ialloc_spec good.disk.image.laid (fun i inside zero here => ?_) fun none => .inl ⟨rfl, none⟩
  refine wp_mono ((good.allocNode inside ((free i inside).2 zero) real).iget (i := i) (good.ninodes ▸ inside))
    (fun k t good => ⟨i, here, good⟩) fun e full => .inr full

end

end Good

end MiniOS
