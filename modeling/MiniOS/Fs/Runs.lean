import Mathlib.Logic.Relation
import MiniOS.Fs.Descriptors

namespace MiniOS

open Lib Relation

/-- A live process makes a system call that returns. -/
inductive FsStep (s : Fs) : Fs → Prop
  | call {t : Fs} (p : Fin nproc) (call : FsCall) (r : Int) :
      (s.proc p).Alive → call.PageFree s → call.run p s = .ok (r, t) → FsStep s t

/-- The tables before `userinit`, with any disk. -/
def Fs.zeroed (sb : Superblock) (block : Nat → Block) (console : Nat → Option Bytes) : Fs where
  sb := sb
  block := block
  icache _ := ⟨0, 0, 0, false, false, freshDinode 0⟩
  ftable _ := ⟨.none, 0, false, false, 0, 0, 0⟩
  pipe _ := none
  proc _ := ⟨.unused, 0, fun _ => none, none⟩
  nextpid := 1
  console := console

/-- `userinit`, which makes the first process. -/
def userinit : FsM Unit := do
  let s ← get
  modify fun s => { s with nextpid := s.nextpid + 1 }
  let ip ← namei 0 [slash]
  modifyProc 0 fun e => { e with pid := s.nextpid, cwd := ip, state := .runnable }

namespace FileDiscipline

variable
  {inv : Multiset (Fin nfile) → (Fin nproc → ProcFiles) → (Fin nproc → ProcFiles) → Multiset Handle → Fs → Prop}
  {err : Stop → Prop} {s t : Fs}

theorem userinit (dis : FileDiscipline inv err) (right : inv 0 s.proc s.proc 0 s) (first : (s.proc 0).cwd = none) :
    wp userinit s (fun _ t => inv 0 t.proc t.proc 0 t) err := by
  have counted := dis.retable s.proc (s.nextpid + 1) right
  refine wp_get_seq (wp_modify_seq (wp_seq ((dis.names 0 s.proc).namei counted) fun ip t right => ?_))
  cases ip with
  | none =>
    refine wp_mono (dis.modifyProc right _) (fun _ _ right => ?_) fun _ => id
    exact dis.now (dis.restate (p := 0) (e := { s.proc 0 with pid := s.nextpid, cwd := none, state := .runnable })
      right rfl first.symm
      nofun)
  | some ip =>
    obtain ⟨i, b, right⟩ := right
    refine wp_mono (dis.modifyProc right _) (fun _ _ right => ?_) fun _ => id
    exact dis.now (dis.giveCwd (p := 0) (e := { s.proc 0 with pid := s.nextpid, cwd := some ip, state := .runnable })
      right first rfl
      nofun rfl)

/-- A system that boots with the invariant keeps it between the calls of a run. -/
theorem reachable {sb : Superblock} {block : Nat → Block} {console : Nat → Option Bytes}
    (dis : FileDiscipline inv err)
    (start : inv 0 (Fs.zeroed sb block console).proc (Fs.zeroed sb block console).proc 0 (Fs.zeroed sb block console))
    (boot : MiniOS.userinit (Fs.zeroed sb block console) = .ok ((), s)) (run : ReflTransGen FsStep s t) :
    inv 0 t.proc t.proc 0 t := by
  have booted : inv 0 s.proc s.proc 0 s := by
    have after := wp_ok (dis.userinit start rfl) boot
    exact after
  induction run with
  | refl => exact booted
  | tail _ last ih =>
    obtain ⟨p, call, r, alive, free, ended⟩ := last
    have after := wp_ok (dis.run call ih alive free) ended
    exact after

end FileDiscipline

end MiniOS
