import MiniOS.Fs.CallRuns

namespace MiniOS

open Lib

namespace View

variable {v : View} {p : Fin nproc} {path : Bytes} {parent : Bool} {rounds i : Nat}

theorem walk_ne_deadlock : v.walk parent rounds i path ≠ .error .deadlock := by
  induction rounds generalizing i path with
  | zero =>
    intro wrong
    cases wrong
  | succ rounds ih => grind [walk]

theorem namex_ne_deadlock : v.namex p path parent ≠ .error .deadlock := by
  rw [namex]
  split
  · intro wrong
    cases wrong
  · exact walk_ne_deadlock

theorem create_ne_deadlock {type major minor : BitVec 16} : v.create p path type major minor ≠ .error .deadlock := by
  have walks : v.namex p path true ≠ .error .deadlock := namex_ne_deadlock
  unfold create locked addEntry
  grind

/-- A directory has no entries for itself but `.` and `..`. -/
def OwnNames (v : View) : Prop :=
  ∀ {d m name off}, v.node d = some m → lookup m.data name = some (d, off) → namecmp name dot = true ∨
  namecmp name dotdot = true

/-- The call is a `link` of a file to a name of the directory in which the link would be. -/
def SelfLink (v : View) (p : Fin nproc) : NameCall → Prop
  | .link (some old) (some new) => ∃ i x n d m name off, v.namex p old false = .ok (some (i, x)) ∧
      v.node i = some n ∧ n.type ≠ tDir ∧
      v.namex p new true = .ok (some (d, name)) ∧ v.node d = some m ∧ lookup m.data name = some (d, off)
  | _ => False

theorem linkIn_deadlock {w before : View} {d : Nat} {name : Bytes} :
    w.linkIn before i d name = .error .deadlock ↔ ∃ m off, w.node d = some m ∧
    lookup m.data name = some (d, off) := by
  unfold linkIn locked addEntry
  grind

theorem sysLink_deadlock {old new : Bytes} (steady : v.Steady ∅) :
    v.sysLink p old new = .error .deadlock ↔ v.SelfLink p (.link (some old) (some new)) := by
  have walks : ∀ {path parent}, v.namex p path parent ≠ .error .deadlock := namex_ne_deadlock
  have relink : ∀ {i n}, v.node i = some n → (v.setNode i (some { n with nlink := n.nlink + 1 })).namex p new true =
      v.namex p new true :=
    namex_relink
  have place : ∀ {i n d name} {n' : Node}, v.node i = some n → n.type ≠ tDir →
    v.namex p new true = .ok (some (d, name)) →
      (v.setNode i (some n')).node d = v.node d := by
    intro i n d name n' there file walked
    obtain ⟨m, place, dir⟩ := (namex_found steady.walkable walked).2 rfl
    exact setNode_node_of_ne _ fun same => file (by cases there.symm.trans (same ▸ place); exact dir)
  unfold sysLink locked SelfLink
  grind [linkIn_deadlock]

theorem call_deadlock {call : NameCall} (steady : v.Steady ∅) (own : v.OwnNames) :
    v.call p call = .error .deadlock ↔ v.SelfLink p call := by
  have walks : ∀ {path parent}, v.namex p path parent ≠ .error .deadlock := namex_ne_deadlock
  have creates : ∀ {path type major minor}, v.create p path type major minor ≠ .error .deadlock := create_ne_deadlock
  unfold View.call
  split
  · refine iff_of_false ?_ id
    unfold sysOpen openInode locked
    grind
  · exact sysLink_deadlock steady
  · refine iff_of_false ?_ id
    unfold sysUnlink locked
    grind [OwnNames]
  · refine iff_of_false ?_ id
    unfold sysCreate
    grind
  · refine iff_of_false ?_ id
    unfold sysCreate
    grind
  · refine iff_of_false ?_ id
    unfold sysChdir locked
    grind
  · refine iff_of_false (fun wrong => by cases wrong) ?_
    grind [SelfLink]

end View

namespace Good

variable {v : View} {s t : Fs} {k : Fin ninode} {i c : Nat} {n : Node} {p : Fin nproc} {path : Bytes}

/-- A read from the console gives up the lock and takes it again. -/
theorem readi (good : Good v {⟨k, i, true⟩} (insert i ∅) s) (there : v.node i = some n) (off m : Nat) :
    wp (MiniOS.readi k off m) s (fun _ t => Good v {⟨k, i, true⟩} (insert i ∅) t) (· ≠ .deadlock) := by
  have mem := Multiset.mem_singleton_self (⟨k, i, true⟩ : Handle)
  have free := Finset.notMem_empty i
  by_cases device : n.type = tDev
  · refine wp_inode k ?_
    rw [good.type_eq mem there, if_pos device]
    refine wp_ite (fun _ => ?_) fun _ => good
    refine wp_seq (good.iunlock_own free) fun _ t good => wp_get_seq (wp_modify_seq ?_)
    have good : Good v {⟨k, i, true⟩} ∅ { t with console := fun i => t.console (i + 1) } := { good with }
    exact good.ilock_seq free (fun _ wrong => by cases wrong) fun u n there good => good
  · refine wp_mono (readi_spec good.disk.image (good.has mem) (good.disk.nodes ▸ there) device off m) ?_ fun _ => id
    rintro _ _ ⟨-, rfl⟩
    exact good

theorem exec {kvm stack : Bool} {room : Nat → Bool} (good : Good v 0 ∅ s) (walkable : v.Walkable 0)
    (here : (v.proc p).cwd = some c) :
    wp (MiniOS.exec p path kvm room stack) s (fun _ _ => True) (· ≠ .deadlock) := by
  refine good.namei_seq walkable here (fun e stopped wrong => ?_) (fun _ wrong => by cases wrong)
    (fun _ _ _ => trivial) fun t i k b name _ kept good => ?_
  · exact View.namex_ne_deadlock (wrong ▸ stopped)
  · have free := Finset.notMem_empty i
    refine good.ilock_seq free (fun _ wrong => by cases wrong) fun t n there good =>
      wp_seq (execFile_keeps _ (fun off m _ good => good.readi there off m) good) ?_
    exact fun _ t good => wp_seq (good.iunlockput_kept free kept) fun _ _ _ => trivial

end Good

/-- A process alone waits for a lock that it holds exactly if it links a file to a name, as `.`, that the directory of
the new link has for itself, unless the call stops before that for lack of room. -/
theorem self_deadlock_iff {v : View} {s : Fs} {p : Fin nproc} (follows : s.Follows v) (own : v.OwnNames)
    (alive : (s.proc p).Alive) :
    (∀ call : NameCall, (call.call.run p s = .error .deadlock → v.SelfLink p call) ∧
      (v.SelfLink p call → ∃ e, call.call.run p s = .error e ∧ (e = .deadlock ∨ v.Lacks e))) ∧
    ∀ path kvm room stack, (FsCall.exec path kvm room stack).run p s ≠ .error .deadlock := by
  refine ⟨fun call => ⟨fun stopped => ?_, fun self => ?_⟩, fun path kvm room stack stopped => ?_⟩
  · obtain same | none := wp_error (follows.call alive call) stopped
    · exact (View.call_deadlock follows.steady own).1 same
    · rcases none with ⟨wrong, -⟩ | ⟨wrong, -⟩ <;> cases wrong
  · have call := follows.call alive call
    rw [(View.call_deadlock follows.steady own).2 self] at call
    obtain ⟨e, stopped, why⟩ :=
      wp_stops (wp_mono call (fun _ _ after => by obtain ⟨_, wrong, _⟩ := after; cases wrong) fun _ => id)
    exact ⟨e, stopped, why.imp (fun same => (Except.error.inj same).symm) id⟩
  · have state := (follows.good.proc p).1
    obtain ⟨c, here⟩ := follows.steady.home p (state ▸ alive.1) (state ▸ alive.2)
    exact wp_error (follows.good.exec follows.steady.walkable here) stopped rfl

/-- The entries of the directory `d` for itself have the name `.`. -/
def Node.ownDot (d : Nat) (m : Node) : Bool :=
  decide (m.data.length % 16 = 0) && (entries m.data).all fun de =>
    de.inum == 0 || de.inum.toNat != d || namecmp de.name dot

def Fs.ownDots (s : Fs) : Bool := (List.range s.sb.ninodes).all fun d => (nodeAt s.sb s.block d).all (Node.ownDot d)

theorem Fs.Follows.ownNames {s : Fs} {v : View} (follows : s.Follows v) (dots : s.ownDots = true) : v.OwnNames := by
  intro d m name off there found
  have inside : d < s.sb.ninodes := follows.good.ninodes ▸ follows.good.node_inside there
  rw [follows.good.disk.nodes] at there
  have own := List.all_eq_true.1 dots d (List.mem_range.2 inside)
  rw [there, Option.all_some, Node.ownDot, Bool.and_eq_true, decide_eq_true_eq] at own
  obtain ⟨x, de, -, here, used, same, number⟩ := lookup_entry own.1 found
  have own := List.all_eq_true.1 own.2 de (List.mem_of_getElem? here)
  refine .inl ?_
  simp only [beq_eq_false_iff_ne.2 used, number, bne_self_eq_false, Bool.false_or] at own
  rw [namecmp_iff] at same own ⊢
  exact same.trans own

/-- Beside the directory "d", the file "f" can be linked to "d/g" but not to "d/.". -/
theorem self_deadlock_of_dir_and_file : ∃ s v, Trace Fs.CallStep emptyFs dirAndFile s ∧ s.Follows v ∧
    v.SelfLink 0 (.link (some [0x66]) (some [0x64, slash, 0x2E])) ∧
    ¬v.SelfLink 0 (.link (some [0x66]) (some [0x64, slash, 0x67])) ∧
    (FsCall.exec [0x66] true (fun _ => true) true).run 0 s ≠ .error .deadlock := by
  have returns : Fs.Returns (fun s => s.ownDots && decide ((s.proc 0).Alive ∧
      wp ((NameCall.link (some [0x66]) (some [0x64, slash, 0x2E])).call.run 0) s (fun _ _ => False) (· = .deadlock) ∧
      wp ((NameCall.link (some [0x66]) (some [0x64, slash, 0x67])).call.run 0) s (fun _ _ => True) fun _ => False))
        dirAndFile emptyFs = true := by
    decide +kernel
  obtain ⟨s, trace, last⟩ := Fs.Returns.trace .start returns
  obtain ⟨dots, last⟩ := Bool.and_eq_true_iff.1 last
  obtain ⟨alive, waits, ends⟩ := of_decide_eq_true last
  obtain ⟨_, waits, rfl⟩ := wp_stops waits
  obtain ⟨_, _, ended, -⟩ := wp_ends ends
  obtain ⟨v, -, follows⟩ := Trace.simulates Fs.Follows.step emptyFs_follows trace
  have settled := self_deadlock_iff follows (follows.ownNames dots) alive
  refine ⟨s, v, trace, follows, (settled.1 _).1 waits, fun self => ?_, settled.2 _ _ _ _⟩
  obtain ⟨e, stopped, -⟩ := (settled.1 _).2 self
  cases ended.symm.trans stopped

/-- A file is linked to the name "." of the directory "d". -/
theorem link_dot_deadlock : ∃ s t : Fs, sysMkdir 0 (some [0x64]) emptyFs = .ok (0, s) ∧
    sysOpen 0 (some ([0x66], 0x202)) s = .ok (0, t) ∧
    (NameCall.link (some [0x66]) (some [0x64, slash, 0x2E])).call.run 0 t = .error .deadlock := by
  have steps : decide (wp (sysMkdir 0 (some [0x64])) emptyFs (fun r s => r = 0 ∧
      decide (wp (sysOpen 0 (some ([0x66], 0x202))) s (fun r t => r = 0 ∧
        wp ((NameCall.link (some [0x66]) (some [0x64, slash, 0x2E])).call.run 0) t (fun _ _ => False) (· = .deadlock))
          fun _ => False) = true)
      fun _ => False) = true := by
    decide +kernel
  obtain ⟨_, s, made, rfl, next⟩ := ends_of_decide steps
  obtain ⟨_, t, opened, rfl, next⟩ := ends_of_decide next
  obtain ⟨_, waits, rfl⟩ := wp_stops next
  exact ⟨s, t, made, opened, waits⟩

end MiniOS
