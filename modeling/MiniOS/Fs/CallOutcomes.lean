import MiniOS.Fs.FullDir

namespace MiniOS

open Lib Function

namespace View

variable {v : View} {p : Fin nproc} {i c : Nat} {path : Bytes} {r : Int} {v' : View}

/-- Only the current directory of process `p` changes. -/
def setCwd (v : View) (p : Fin nproc) (cwd : Option Nat) : View := v.setProc p { v.proc p with cwd := cwd }

theorem uses_setCwd (v : View) (p : Fin nproc) (cwd : Option Nat) (j : Nat) :
    (v.setCwd p cwd).uses j + (if (v.proc p).cwd = some j then 1 else 0) =
    v.uses j + (if cwd = some j then 1 else 0) :=
  v.uses_setProc p { v.proc p with cwd := cwd } j

theorem cwd_setCwd (v : View) (p : Fin nproc) (cwd : Option Nat) : ((v.setCwd p cwd).proc p).cwd = cwd := by
  simp only [setCwd, setProc, update_self]

theorem setCwd_setCwd (v : View) (p : Fin nproc) (cwd cwd' : Option Nat) :
    (v.setCwd p cwd).setCwd p cwd' = v.setCwd p cwd' := by
  simp only [setCwd, setProc, update_self, update_idem]

/-- What a `sys_unlink` that returns has done. -/
theorem sysUnlink_ok (ans : v.sysUnlink p path = .ok (r, v')) :
    r = -1 ∧ v' = v ∨ r = 0 ∧ ∃ d m name j n off, v.namex p path true = .ok (some (d, name)) ∧ v.node d = some m ∧
      lookup m.data name = some (j, off) ∧ v.node j = some n ∧
      v' = (((v.setNode d (some (unlinkedFrom m n off))).drop d).setNode j
        (some { n with nlink := n.nlink - 1 })).drop j := by
  rw [sysUnlink] at ans
  split at ans
  · cases ans
  · cases ans
    exact .inl ⟨rfl, rfl⟩
  · rename_i d name walked
    obtain ⟨m, place, ans⟩ := locked_ok ans
    split at ans
    · cases ans
      exact .inl ⟨rfl, rfl⟩
    · split at ans
      · cases ans
        exact .inl ⟨rfl, rfl⟩
      · rename_i j off found
        split at ans
        · cases ans
        · obtain ⟨n, there, ans⟩ := locked_ok ans
          split at ans
          · cases ans
          · split at ans
            · cases ans
              exact .inl ⟨rfl, rfl⟩
            · cases ans
              exact .inr ⟨rfl, d, m, name, j, n, off, walked, place, found, there, rfl⟩

theorem sysChdir_ok (ans : v.sysChdir p path = .ok (r, v')) :
    r = -1 ∧ v' = v ∨ r = 0 ∧ ∃ i, v' = (v.setCwd p (some i)).drop ((v.proc p).cwd.getD 0) := by
  rw [sysChdir] at ans
  split at ans
  · cases ans
  · cases ans
    exact .inl ⟨rfl, rfl⟩
  · rename_i i x walked
    obtain ⟨n, there, ans⟩ := locked_ok ans
    split at ans
    · cases ans
      exact .inl ⟨rfl, rfl⟩
    · cases ans
      exact .inr ⟨rfl, i, rfl⟩

theorem drop_setCwd (v : View) (p : Fin nproc) (cwd : Option Nat) (c : Nat)
    (same : ((v.setCwd p cwd).uses c = 0) = (v.uses c = 0)) :
    (v.drop c).setCwd p cwd = (v.setCwd p cwd).drop c := by
  have dead : (v.setCwd p cwd).Dead c = v.Dead c := rfl
  unfold drop
  simp only [same, dead]
  split
  · rfl
  · rfl

end View

namespace Good

variable {v : View} {X Y : Multiset Handle} {L : Finset Nat} {s : Fs} {k : Fin ninode} {i c : Nat}
  {b : Bool} {p : Fin nproc} {path : Bytes} {err : Stop → Prop}

/-- The rest of `sys_chdir`, which drops the old directory first. -/
theorem changeCwd (good : Good v {⟨k, i, true⟩} ∅ s) (here : (v.proc p).cwd = some c) :
    wp (do let old ← MiniOS.cwd p
           MiniOS.iput old
           modifyProc p fun e => { e with cwd := some k }
           pure (0 : Int)) s (fun r t => r = 0 ∧ Good ((v.setCwd p (some i)).drop c) 0 ∅ t) err := by
  obtain ⟨l, at_l, caches⟩ := good.cwd p c here
  have free := Finset.notMem_empty c
  have before (j : Nat) : (v.setCwd p none).uses j + (if c = j then 1 else 0) = v.uses j := by
    have moved := v.uses_setCwd p none j
    simpa only [here, Option.some.injEq, reduceCtorEq, if_false, Nat.add_zero] using moved
  have taken : Good (v.setCwd p none) (⟨l, c, decide (v.Dead c)⟩ ::ₘ {⟨k, i, true⟩}) ∅ s := by
    have moved : Good (v.setCwd p none) (⟨l, c, decide (v.Dead c)⟩ ::ₘ {⟨k, i, true⟩}) ∅
        { s with proc := Function.update s.proc p (s.proc p) } :=
          good.setProc (fun j => ?_) (fun h mem => ?_) (good.proc p) nofun
    · rwa [Function.update_eq_self] at moved
    · change (v.setCwd p none).uses j + _ = _
      rw [Multiset.map_cons, Multiset.count_cons, ← before j]
      simp only [eq_comm]
      omega
    · obtain rfl | mem := Multiset.mem_cons.1 mem
      · exact ⟨caches, fun dead => (good.entry l).live caches.1 (caches.2 ▸ View.uses_of_cwd here)
          (caches.2 ▸ of_decide_eq_true dead)⟩
      · exact good.handle h mem
  have finish : ∀ {w : View} {t : Fs}, Good w {⟨k, i, true⟩} ∅ t → (w.proc p).cwd = none →
    w.setCwd p (some i) = (v.setCwd p (some i)).drop c →
      wp (do modifyProc p fun e => { e with cwd := some k }
             pure (0 : Int)) t (fun r t => r = 0 ∧ Good ((v.setCwd p (some i)).drop c) 0 ∅ t) err := by
    intro w t good' none same
    obtain ⟨mine, valid⟩ := good'.handle _ (Multiset.mem_singleton_self _)
    refine ⟨rfl, same ▸ good'.setProc (fun j => ?_) nofun (good'.proc p) fun j at_j => ?_⟩
    · have moved := w.uses_setCwd p (some i) j
      change (w.setCwd p (some i)).uses j + _ = _
      rw [Multiset.map_zero, Multiset.count_zero, Multiset.map_singleton, Multiset.count_singleton]
      simpa only [none, reduceCtorEq, if_false, Option.some.injEq, eq_comm] using moved
    · cases at_j
      exact ⟨k, rfl, mine, .inr (valid rfl)⟩
  have none := v.cwd_setCwd p none
  rw [wp_bind]
  refine wp_cwd (fun wrong => absurd (at_l.symm.trans wrong) nofun) fun l' here' => ?_
  cases at_l.symm.trans here'
  by_cases same : c = i
  · subst same
    refine wp_seq (taken.iput_kept free fun _ => .inr (by simp)) fun _ t good' => finish good' none ?_
    have uses : 0 < (v.setCwd p (some c)).uses c := View.uses_of_cwd (v.cwd_setCwd p _)
    rw [View.setCwd_setCwd, View.drop_of_keeps (View.keeps_of_uses uses)]
  · refine wp_seq (taken.iput_drop free (fun dead => decide_eq_true dead) (by simpa using same)) fun _ t good' =>
      finish good' ?_ ?_
    · rw [(View.drop_tables _ c).2, none]
    · have after := (v.setCwd p Option.none).uses_setCwd p (some i) c
      rw [none, if_neg nofun, if_neg fun wrong => same (Option.some.inj wrong).symm] at after
      rw [View.drop_setCwd _ p (some i) c, View.setCwd_setCwd]
      exact congrArg (· = 0) after

theorem sysChdir (good : Good v 0 ∅ s) (walkable : v.Walkable 0) (here : (v.proc p).cwd = some c) :
    wp (sysChdir p (some path)) s (Ends (v.sysChdir p path)) (Stops v (v.sysChdir p path)) := by
  refine good.namei_seq walkable here (fun e stopped => ?_) (fun full => .inr (View.lacks_iget full (by simp)))
    (fun t none good => ⟨v, ?_, good⟩) fun t i k b name walked kept good => ?_
  · exact .inl (by rw [View.sysChdir, stopped])
  · rw [View.sysChdir, none]
  · rw [View.sysChdir, walked]
    simp only
    have free := Finset.notMem_empty i
    refine good.ilock_seq free (fun gone => .inl (View.locked_none gone)) fun t n there good => wp_inode k ?_
    rw [good.type_eq (Multiset.mem_cons_self ..) there, View.locked_some there, here]
    refine wp_ite (fun file => ?_) fun dir => ?_
    · exact wp_seq (good.iunlockput_kept free kept) fun _ t good => ⟨v, if_pos file, good⟩
    · rw [if_neg dir]
      refine wp_seq (good.iunlock_own free) fun _ t good => wp_mono (changeCwd good here)
        (fun r t ends => ?_) fun _ => id
      obtain ⟨rfl, good⟩ := ends
      exact ⟨_, rfl, good⟩

/-- The calls on names do in the state what they do in the view. -/
theorem call (good : Good v 0 ∅ s) (walkable : v.Walkable 0) (tidy : v.Tidy) (here : (v.proc p).cwd = some c)
    (call : NameCall) :
    wp (call.call.run p) s (Ends (v.call p call)) (Stops v (v.call p call)) := by
  have refused : ∀ {e : Stop → Prop}, wp (pure (-1) : FsM Int) s (Ends (.ok (-1, v))) e := ⟨v, rfl, good⟩
  match call with
  | .open none => exact refused
  | .open (some (path, omode)) => exact good.sysOpen walkable tidy here
  | .link none _ => exact refused
  | .link (some old) none => exact refused
  | .link (some old) (some new) => exact good.sysLink walkable here
  | .unlink none => exact refused
  | .unlink (some path) => exact good.sysUnlink walkable here
  | .mkdir none => exact refused
  | .mkdir (some path) => exact good.sysCreate walkable here (by decide)
  | .mknod none => exact refused
  | .mknod (some (path, major, minor)) => exact good.sysCreate walkable here (by decide)
  | .chdir none => exact refused
  | .chdir (some path) => exact good.sysChdir walkable here

end Good

end MiniOS
