import Mathlib.Algebra.GroupWithZero.Nat
import MiniOS.Lib.Run
import MiniOS.Fs.WriteThrough

namespace MiniOS

open Lib Relation Function

variable {src : Bytes} {ι : Type}

/-- One round of the loop of `filewrite`, between `ilock` and `iunlock`. -/
def filewriteRound (f : Fin nfile) (ip : Fin ninode) (chunk : Bytes) : FsM (Option Nat) := do
  ilock ip
  let e ← file f
  let r ← writei ip chunk e.off.toNat
  modifyFile f fun e => { e with off := e.off + BitVec.ofNat 32 (r.getD 0) }
  iunlock ip
  pure r

/-- The loop of `filewrite` is a sequence of rounds. -/
theorem filewriteLoop_succ (f : Fin nfile) (ip : Fin ninode) (rounds : Nat) (src : Bytes) :
    filewriteLoop f ip (rounds + 1) src = (if src = [] then pure true else do
      let r ← filewriteRound f ip (src.take (3 * 512))
      match r with
      | none => pure false
      | some r => do
        panicIf (r ≠ (src.take (3 * 512)).length) "short filewrite"
        filewriteLoop f ip rounds (src.drop (3 * 512))) := by
  simp only [filewriteRound, bind_assoc, pure_bind]
  rfl

/-- The chunks in which `filewrite` writes the bytes of a call. -/
def pieces (src : Bytes) : List Bytes :=
  if src = [] then [] else src.take (3 * 512) :: pieces (src.drop (3 * 512))
termination_by src.length
decreasing_by
  rename_i some
  have := List.length_pos_of_ne_nil some
  rw [List.length_drop]
  omega

theorem pieces_nil : pieces [] = [] := by rw [pieces, if_pos rfl]

theorem pieces_of_ne (some : src ≠ []) : pieces src = src.take (3 * 512) :: pieces (src.drop (3 * 512)) := by
  rw [pieces, if_neg some]

theorem flatten_pieces (src : Bytes) : (pieces src).flatten = src := by
  fun_induction pieces src with
  | case1 => rfl
  | case2 src some ih => rw [List.flatten_cons, ih, List.take_append_drop]

section Round

variable {X : Multiset Handle} {F : Multiset (Fin nfile)} {procs table : Fin nproc → ProcFiles}
  {s : Fs} {k : Fin ninode} {f : Fin nfile} {i : Nat} {n : Node} {chunk : Bytes}

/-- `ilock` of a valid inode takes the lock. -/
theorem ilock_valid {err : Stop → Prop} (busy : 0 < (s.icache k).ref) (valid : (s.icache k).valid = true)
    (dead : err .deadlock) :
    wp (ilock k) s (fun _ t => t = s.setInode k { s.icache k with locked := true }) err := by
  refine wp_inode k (wp_guard (fun free => absurd free (by omega)) fun _ => wp_seq (acquiresleep_spec dead) ?_)
  rintro _ _ rfl
  refine wp_inode k ?_
  rw [setInode_icache_self, if_pos valid]
  exact rfl

/-- The file of entry `k` is regular and has the contents of `n`. -/
structure Fs.Regular (s : Fs) (k : Fin ninode) (i : Nat) (n : Node) : Prop where
  inum : (s.icache k).inum = i
  regular : (s.icache k).d.type = tFile
  node : nodeAt s.sb s.block i = some n

theorem Fs.Regular.relock (keeps : s.Regular k i n) (b : Bool) :
    (s.setInode k { s.icache k with locked := b }).Regular k i n where
  inum := by rw [setInode_icache_self, keeps.inum]
  regular := by rw [setInode_icache_self, keeps.regular]
  node := keeps.node

/-- `writei` to an open regular file refuses, or puts the bytes where the offset says. -/
theorem Sound.writei_regular (right : Sound F procs table X s) (busy : 0 < (s.icache k).ref)
    (valid : (s.icache k).valid = true) (keeps : s.Regular k i n) (off : Nat) :
    wp (writei k chunk off) s (fun r t => r = none ∧ t = s ∨
      r = some chunk.length ∧ off ≤ n.data.length ∧ off + chunk.length ≤ 140 * 512 ∧ Sound F procs table X t ∧
        t.ftable = s.ftable ∧ t.Regular k i (n.write off chunk)) Stop.Benign := by
  obtain ⟨rfl, regular, node⟩ := keeps
  have has := right.2.has busy valid
  have type : n.type = tFile := by rw [← has.kind node, regular]
  have file : n.type ≠ tDev := by
    rw [type]
    decide
  by_cases wrong : n.data.length < off ∨ (off + chunk.length) % 2 ^ 32 < off ∨ 140 * 512 < off + chunk.length
  · exact wp_mono (writei_refused_spec has node file wrong) (fun _ _ => .inl) fun _ => id
  · refine wp_mono (writei_spec right.2.image.disk has node file (by omega) (by omega)) ?_ ?_
    · rintro _ _ ⟨rfl, block, rfl, disk, others⟩
      obtain ⟨agrees, types⟩ := right.2.store right.1 busy valid node disk others fun dir =>
        absurd (type.symm.trans dir) (by decide)
      have tables : (s.stored k block (dinodeOf s.sb block (s.icache k).inum)).tables = s.tables :=
        Fs.tables_setInode (s := { s with block := block }) rfl rfl rfl
      refine .inr ⟨rfl, by omega, by omega, ⟨right.1.of_tables tables, agrees⟩, rfl, ?_, ?_, ?_⟩
      · rw [Fs.stored_icache]
      · rw [types, regular]
      · exact (congrFun disk.nodes _).symm.trans (update_self ..)
    · rintro _ ⟨rfl, -⟩
      decide

/-- A round that does not fail writes its bytes at the offset of the file and moves
the offset behind them. -/
theorem Sound.filewriteRound (right : Sound F procs table X s) (there : (s.ftable f).inode? = some k)
    (keeps : s.Regular k i n) :
    wp (filewriteRound f k chunk) s (fun r t => ∀ m, r = some m → Sound F procs table X t ∧
      t.ftable f = { s.ftable f with off := (s.ftable f).off + BitVec.ofNat 32 chunk.length } ∧
      (s.ftable f).off.toNat ≤ n.data.length ∧ (s.ftable f).off.toNat + chunk.length ≤ 140 * 512 ∧
      t.Regular k i (n.write (s.ftable f).off.toNat chunk)) Stop.Benign := by
  have busy := right.inode_busy there
  have valid := (right.2.opened f k there).1
  refine wp_seq (ilock_valid busy valid (by decide)) ?_
  rintro _ _ rfl
  have right : Sound F procs table X (s.setInode k { s.icache k with locked := true }) :=
    ⟨right.1.of_tables (Fs.tables_setInode rfl rfl rfl), right.2.relock true⟩
  have keeps := keeps.relock true
  have entry : (s.setInode k { s.icache k with locked := true }).icache k = { s.icache k with locked := true } :=
    setInode_icache_self
  have files : (s.setInode k { s.icache k with locked := true }).ftable = s.ftable := rfl
  generalize s.setInode k _ = u at right keeps entry files ⊢
  refine wp_file f (wp_seq (right.writei_regular (entry ▸ busy) (entry ▸ valid) keeps _) ?_)
  rintro _ t (⟨rfl, rfl⟩ | ⟨rfl, start, small, right, files', keeps⟩)
  · refine wp_modify_seq (wp_seq (iunlock_spec (by decide)) fun _ _ _ m none => ?_)
    cases none
  · rw [files] at files' start small keeps
    refine wp_modify_seq (wp_seq (iunlock_spec (by decide)) ?_)
    rintro _ _ rfl _ -
    have right := right.setOff (f := f) ((t.ftable f).off + BitVec.ofNat 32 chunk.length)
    refine ⟨⟨right.1.of_tables (Fs.tables_setInode rfl rfl rfl), right.2.relock false⟩, ?_, start, small, ?_⟩
    · rw [← files']
      exact update_self ..
    · exact Fs.Regular.relock (s := t.setFile f _) ⟨keeps.inum, keeps.regular, keeps.node⟩ false

end Round

theorem overwrite_overwrite {data a b : Bytes} {off : Nat} (start : off + a.length ≤ (overwrite data off a).length) :
    overwrite (overwrite data off a) (off + a.length) b = overwrite data off (a ++ b) := by
  have inside : off ≤ data.length := by
    simp only [overwrite, List.length_append, List.length_take, List.length_drop] at start
    omega
  have front : (data.take off ++ a).length = off + a.length := by
    rw [List.length_append, List.length_take, Nat.min_eq_left inside]
  have head : (overwrite data off a).take (off + a.length) = data.take off ++ a := by
    rw [overwrite, ← front, List.take_left]
  have tail : (overwrite data off a).drop (off + a.length + b.length) = data.drop (off + (a ++ b).length) := by
    rw [overwrite, ← List.drop_drop, ← front, List.drop_left, List.drop_drop, front,
      List.length_append, Nat.add_assoc]
  rw [overwrite, head, tail, overwrite, List.append_assoc (data.take off)]

/-- Processes in `filewrite` on one open file. `rest` has the bytes that a process in a
call has still to write. The calls and the chunks, in the order in which they were made
and written, are only there to be talked about. -/
structure Writers (ι : Type) where
  fs : Fs
  rest : ι → Option Bytes
  calls : List (ι × Bytes)
  chunks : List (ι × Bytes)

/-- A process calls `filewrite`, goes through one round of its loop, or returns because
all bytes are written. Calls that do not return their `n` are left out. -/
inductive WriteStep {ι : Type} [DecidableEq ι] (f : Fin nfile) (ip : Fin ninode) (w : Writers ι) : Writers ι → Prop
  | call (p : ι) (src : Bytes) : w.rest p = none → (w.fs.ftable f).writable = true →
      (w.fs.ftable f).type = .inode → (w.fs.ftable f).ip = ip →
      WriteStep f ip w { w with rest := update w.rest p (some src), calls := w.calls ++ [(p, src)] }
  | round {p : ι} {src : Bytes} {n : Nat} {t : Fs} : w.rest p = some src → src ≠ [] →
      filewriteRound f ip (src.take (3 * 512)) w.fs = .ok (some n, t) → n = (src.take (3 * 512)).length →
      WriteStep f ip w { w with
        fs := t
        rest := update w.rest p (some (src.drop (3 * 512)))
        chunks := w.chunks ++ [(p, src.take (3 * 512))] }
  | done {p : ι} : w.rest p = some [] → WriteStep f ip w { w with rest := update w.rest p none }

/-- The chunks of a call, with the process that makes it. -/
def cut {ι : Type} (call : ι × Bytes) : List (ι × Bytes) := (pieces call.2).map fun chunk => (call.1, chunk)

/-- The bytes of a list of chunks. -/
def written {ι : Type} (chunks : List (ι × Bytes)) : Bytes := (chunks.map Prod.snd).flatten

theorem cut_nil (p : ι) : cut (p, []) = [] := by rw [cut, pieces_nil, List.map_nil]

theorem cut_of_ne (p : ι) (some : src ≠ []) :
    cut (p, src) = (p, src.take (3 * 512)) :: cut (p, src.drop (3 * 512)) := by
  rw [cut, pieces_of_ne some, List.map_cons]
  rfl

theorem written_cut (call : ι × Bytes) : written (cut call) = call.2 := by
  rw [written, cut, List.map_map]
  exact (congrArg List.flatten (List.map_id _)).trans (flatten_pieces call.2)

theorem written_concat (chunks : List (ι × Bytes)) (c : ι × Bytes) :
    written (chunks ++ [c]) = written chunks ++ c.2 := by
  simp only [written, List.map_append, List.flatten_append, List.map_cons, List.map_nil,
    List.flatten_cons, List.flatten_nil,
    List.append_nil]

section Writers

variable {ι : Type} [DecidableEq ι] {f : Fin nfile} {ip : Fin ninode} {p : ι} {src : Bytes} {s t : Fs} {w : Writers ι}

/-- The loop of `filewrite`, if it writes all bytes, is a run of rounds. -/
theorem filewriteLoop_steps {rounds : Nat} (enough : src.length ≤ rounds) (here : w.rest p = some src)
    (ended : filewriteLoop f ip rounds src w.fs = .ok (true, t)) : ReflTransGen (WriteStep f ip) w { w with
      fs := t
      rest := update w.rest p (some [])
      chunks := w.chunks ++ cut (p, src) } := by
  induction rounds generalizing src w with
  | zero =>
    cases List.eq_nil_of_length_eq_zero (Nat.le_zero.1 enough)
    cases ended
    rw [cut_nil, List.append_nil, ← here, update_eq_self]
  | succ rounds ih =>
    rw [filewriteLoop_succ] at ended
    by_cases none : src = []
    · rw [if_pos none] at ended
      subst none
      cases ended
      rw [cut_nil, List.append_nil, ← here, update_eq_self]
    · rw [if_neg none] at ended
      obtain ⟨r, u, wrote, ended⟩ := run_bind ended
      cases r with
      | none => cases ended
      | some n =>
        obtain ⟨_, u', whole, ended⟩ := run_bind ended
        by_cases short : n ≠ (src.take (3 * 512)).length
        · rw [panicIf, if_pos short] at whole
          cases whole
        · rw [panicIf, if_neg short] at whole
          cases whole
          have shorter : (src.drop (3 * 512)).length ≤ rounds := by
            have := List.length_pos_of_ne_nil none
            rw [List.length_drop]
            omega
          have first := WriteStep.round here none wrote (not_not.1 short)
          have later := ih shorter (w := { w with
            fs := u
            rest := update w.rest p (some (src.drop (3 * 512)))
            chunks := w.chunks ++ [(p, src.take (3 * 512))] }) (update_self ..) ended
          rw [cut_of_ne p none]
          simp only [update_idem, List.append_assoc, List.singleton_append] at later
          exact later.head first

/-- A call of `filewrite` that returns its `n`, made without interruption, is a run of
this system. -/
theorem filewrite_steps {f : Fin nfile} (idle : w.rest p = none) (type : (w.fs.ftable f).type = .inode)
    (ended : filewrite f src w.fs = .ok (true, t)) : ReflTransGen (WriteStep f (w.fs.ftable f).ip) w { w with
      fs := t
      calls := w.calls ++ [(p, src)]
      chunks := w.chunks ++ cut (p, src) } := by
  obtain ⟨e, u, read, ended⟩ := run_bind ended
  cases read
  by_cases writable : (w.fs.ftable f).writable = false
  · rw [if_pos writable] at ended
    cases ended
  · rw [if_neg writable, type] at ended
    have first := WriteStep.call (f := f) p src idle (Bool.not_eq_false _ ▸ writable) type rfl
    have loop :=
      filewriteLoop_steps (w := { w with rest := update w.rest p (some src), calls := w.calls ++ [(p, src)] })
      le_rfl (update_self ..) ended
    have last := loop.tail (.done (update_self ..))
    simp only [update_idem, ← idle, update_eq_self] at last
    exact last.head first

/-- What `p` has written, and what it has still to write of its call. -/
def Writers.account (w : Writers ι) (p : ι) : List (ι × Bytes) :=
  w.chunks.filter (fun c => c.1 = p) ++ (w.rest p).elim [] fun src => cut (p, src)

/-- What holds while processes write. `n` is the file and `off` the offset at the start. -/
structure Shared (f : Fin nfile) (k : Fin ninode) (i : Nat) (n : Node) (off : Nat) (F : Multiset (Fin nfile))
    (procs table : Fin nproc → ProcFiles) (X : Multiset Handle) (w : Writers ι) : Prop where
  sound : Sound F procs table X w.fs
  there : (w.fs.ftable f).inode? = some k
  file : w.fs.Regular k i (n.write off (written w.chunks))
  moved : (w.fs.ftable f).off.toNat = off + (written w.chunks).length
  chunks : ∀ p, w.account p = (w.calls.filter fun c => c.1 = p).flatMap cut

variable {k : Fin ninode} {i off : Nat} {n : Node} {F : Multiset (Fin nfile)} {procs table : Fin nproc → ProcFiles}
  {X : Multiset Handle} {w' : Writers ι}

theorem Shared.start (right : Sound F procs table X s) (there : (s.ftable f).inode? = some k)
    (file : s.Regular k i n) :
    Shared f k i n (s.ftable f).off.toNat F procs table X (⟨s, fun _ => none, [], []⟩ : Writers ι) where
  sound := right
  there := there
  file := by
    have same : n.write (s.ftable f).off.toNat (written ([] : List (ι × Bytes))) = n := by
      simp only [Node.write, overwrite, written, List.map_nil, List.flatten_nil, List.append_nil,
        List.length_nil, Nat.add_zero,
        List.take_append_drop]
    rw [same]
    exact file
  moved := rfl
  chunks _ := rfl

theorem filter_one (p q : ι) (src : Bytes) :
    [(p, src)].filter (fun c => c.1 = q) = if p = q then [(p, src)] else [] := by
  by_cases same : p = q
  · simp only [same, decide_true, List.filter_cons_of_pos, List.filter_nil, if_true]
  · simp only [same, decide_false, Bool.false_eq_true, not_false_eq_true, List.filter_cons_of_neg,
      List.filter_nil, if_false]

theorem Writers.account_call (w : Writers ι) (p q : ι) (src : Bytes) (idle : w.rest p = none) :
    Writers.account { w with rest := update w.rest p (some src), calls := w.calls ++ [(p, src)] } q =
      w.account q ++ if p = q then cut (p, src) else [] := by
  by_cases same : p = q
  · subst same
    simp only [account, update_self, idle, Option.elim, if_true, List.append_nil]
  · simp only [account, update_of_ne (Ne.symm same), if_neg same, List.append_nil]

theorem Writers.account_round {w : Writers ι} {p : ι} {src : Bytes} (q : ι) (t : Fs) (busy : w.rest p = some src)
    (more : src ≠ []) :
    Writers.account { w with
      fs := t
      rest := update w.rest p (some (src.drop (3 * 512)))
      chunks := w.chunks ++ [(p, src.take (3 * 512))] } q = w.account q := by
  by_cases same : p = q
  · subst same
    simp only [account, update_self, busy, Option.elim, List.filter_append, filter_one, if_true, cut_of_ne p more,
      List.append_assoc, List.singleton_append]
  · simp only [account, update_of_ne (Ne.symm same), List.filter_append, filter_one, if_neg same, List.append_nil]

theorem Writers.account_done {w : Writers ι} {p : ι} (q : ι) (busy : w.rest p = some []) :
    Writers.account { w with rest := update w.rest p none } q = w.account q := by
  by_cases same : p = q
  · subst same
    simp only [account, update_self, busy, Option.elim, cut_nil]
  · simp only [account, update_of_ne (Ne.symm same)]

theorem Shared.step (shared : Shared f k i n off F procs table X w) (step : WriteStep f k w w') :
    Shared f k i n off F procs table X w' := by
  cases step with
  | call p src idle _ _ _ =>
    refine { shared with chunks := fun q => ?_ }
    rw [w.account_call p q src idle, shared.chunks q, List.filter_append, List.flatMap_append, filter_one]
    split
    · rw [List.flatMap_singleton]
    · rw [List.flatMap_nil]
  | @round p src m t busy more wrote whole =>
    have spec := wp_ok (shared.sound.filewriteRound shared.there shared.file) wrote
    obtain ⟨sound, entry, start, small, file⟩ := spec m rfl
    have longer : written (w.chunks ++ [(p, src.take (3 * 512))]) = written w.chunks ++ src.take (3 * 512) :=
      written_concat _ _
    refine ⟨sound, ?_, ?_, ?_, fun q => ?_⟩
    · rw [File.inode?, entry]
      exact shared.there
    · rw [shared.moved] at start file
      simp only [Node.write, overwrite_overwrite start, ← longer] at file
      exact file
    · simp only [entry, BitVec.toNat_add, BitVec.toNat_ofNat, longer, List.length_append]
      rw [shared.moved] at small ⊢
      omega
    · rw [Writers.account_round q t busy more]
      exact shared.chunks q
  | done busy =>
    refine { shared with chunks := fun q => ?_ }
    rw [Writers.account_done q busy]
    exact shared.chunks q

/-- Lists that agree on every process have the same members, as often. -/
theorem perm_of_filter {l l' : List (ι × Bytes)}
    (same : ∀ p, l.filter (fun c => c.1 = p) = l'.filter fun c => c.1 = p) : l.Perm l' := by
  rw [List.perm_iff_count]
  rintro ⟨p, src⟩
  have mine : ∀ m : List (ι × Bytes), (m.filter fun c => c.1 = p).count (p, src) = m.count (p, src) := fun m =>
    List.count_filter (decide_eq_true (rfl : p = p))
  rw [← mine l, ← mine l', same p]

end Writers

theorem written_length (chunks : List (ι × Bytes)) :
    (written chunks).length = (chunks.map fun c => c.2.length).sum := by
  rw [written, List.length_flatten, List.map_map]
  rfl

theorem written_flatMap_cut (calls : List (ι × Bytes)) : written (calls.flatMap cut) = written calls := by
  induction calls with
  | nil => rfl
  | cons call calls ih =>
    simp only [written, List.flatMap_cons, List.map_append, List.flatten_append, List.map_cons,
      List.flatten_cons] at ih ⊢
    rw [ih]
    exact congrArg (· ++ _) (written_cut call)

theorem filter_cut [DecidableEq ι] (call : ι × Bytes) (p : ι) :
    (cut call).filter (fun c => c.1 = p) = if call.1 = p then cut call else [] := by
  rw [cut, List.filter_map]
  by_cases same : call.1 = p
  · have all : (pieces call.2).filter ((fun c => decide (c.1 = p)) ∘ fun chunk => (call.1, chunk)) = pieces call.2 :=
      List.filter_eq_self.2 fun _ _ => decide_eq_true same
    rw [if_pos same, all]
  · have none : (pieces call.2).filter ((fun c => decide (c.1 = p)) ∘ fun chunk => (call.1, chunk)) = [] :=
      List.filter_eq_nil_iff.2 fun _ _ => by simpa using same
    rw [if_neg same, none, List.map_nil]

theorem filter_flatMap_cut [DecidableEq ι] (calls : List (ι × Bytes)) (p : ι) :
    (calls.flatMap cut).filter (fun c => c.1 = p) = (calls.filter fun c => c.1 = p).flatMap cut := by
  induction calls with
  | nil => rfl
  | cons call calls ih =>
    rw [List.flatMap_cons, List.filter_append, filter_cut, ih, List.filter_cons]
    by_cases same : call.1 = p
    · rw [if_pos same, if_pos (decide_eq_true same), List.flatMap_cons]
    · rw [if_neg same, if_neg (by simpa using same), List.nil_append]

/-- Processes that write through one open file of a regular inode lose nothing: once all
calls have returned, the offset has moved by the sum of their lengths, the chunks stand
one behind the other in the order in which they were written, and the chunks of each
process are those of its calls, in the order of the calls. -/
theorem shared_file_writes {ι : Type} [DecidableEq ι] {sb : Superblock} {block : Nat → Block}
    {console : Nat → Option Bytes} {s t : Fs} {f : Fin nfile} {k : Fin ninode} {w : Writers ι}
    (image : WellFormedImage sb block) (boot : userinit (Fs.zeroed sb block console) = .ok ((), s))
    (run : ReflTransGen FsStep s t) (there : (t.ftable f).inode? = some k) (regular : (t.icache k).d.type = tFile)
    (writes : ReflTransGen (WriteStep f k) ⟨t, fun _ => none, [], []⟩ w) (idle : ∀ p, w.rest p = none) :
    (w.fs.ftable f).off.toNat = (t.ftable f).off.toNat + (w.calls.map fun c => c.2.length).sum ∧
    (∃ n, nodeAt t.sb t.block (t.icache k).inum = some n ∧ nodeAt w.fs.sb w.fs.block (t.icache k).inum =
      some { n with data := overwrite n.data (t.ftable f).off.toNat (w.chunks.map Prod.snd).flatten }) ∧
    ∀ p, (w.chunks.filter fun c => c.1 = p) = (w.calls.filter fun c => c.1 = p).flatMap cut := by
  have right := Sound.reachable image boot run
  have has := right.2.has (right.inode_busy there) (right.2.opened f k there).1
  have shared : Shared f k (t.icache k).inum (nodeOf t.block (t.icache k).d)
      (t.ftable f).off.toNat 0 t.proc t.proc 0 w :=
    run_induction Shared.step (.start right there ⟨rfl, regular, has.stands⟩) writes
  have mine : ∀ p, (w.chunks.filter fun c => c.1 = p) = (w.calls.filter fun c => c.1 = p).flatMap cut := by
    intro p
    have account := shared.chunks p
    rwa [Writers.account, idle p, Option.elim, List.append_nil] at account
  refine ⟨?_, ⟨_, has.stands, shared.file.node⟩, mine⟩
  have perm : w.chunks.Perm (w.calls.flatMap cut) :=
    perm_of_filter fun p => (mine p).trans (filter_flatMap_cut w.calls p).symm
  rw [shared.moved, written_length, (perm.map _).sum_nat, ← written_length, written_flatMap_cut, written_length]

/-- A call of two chunks, the first of 1536 bytes and the second of one byte. -/
def twoChunks : Bytes := List.replicate 1537 1

/-- Between the two chunks of one process another one writes a byte, and then it makes a second call. -/
theorem shared_file_writes_interleaved : ∃ (s t : Fs) (w : Writers Bool),
    userinit (Fs.zeroed mkfsSuper emptyRoot fun _ => none) = .ok ((), s) ∧ ReflTransGen FsStep s t ∧
      ReflTransGen (WriteStep 0 1) ⟨t, fun _ => none, [], []⟩ w ∧
      w.calls = [(false, twoChunks), (true, [3]), (true, [4, 5])] ∧
      w.chunks.map Prod.fst = [false, true, false, true] ∧
      (w.fs.ftable 0).off.toNat = (t.ftable 0).off.toNat + 1540 := by
  have steps : decide (wp userinit (Fs.zeroed mkfsSuper emptyRoot fun _ => none) (fun _ s => (s.proc 0).Alive ∧
      decide (wp ((FsCall.open (some ([slash, 0x61], 0x202))).run 0) s (fun _ t =>
        (t.ftable 0).inode? = some 1 ∧ (t.icache 1).d.type = tFile ∧ (t.ftable 0).writable = true ∧
        decide (wp (filewriteRound 0 1 (twoChunks.take (3 * 512))) t (fun r u => r = some 1536 ∧
          decide (wp (filewriteRound 0 1 [3]) u (fun r v => r = some 1 ∧
            decide (wp (filewriteRound 0 1 [1]) v (fun r x => r = some 1 ∧
              ((x.ftable 0).type = .inode ∧ (x.ftable 0).ip = 1) ∧
              decide (wp (filewrite 0 [4, 5]) x (fun r _ => r = true) fun _ => False) = true) fun _ => False) = true)
            fun _ => False) = true) fun _ => False) = true) fun _ => False) = true) fun _ => False) = true := by
    decide +kernel
  obtain ⟨_, s, boot, alive, next⟩ := ends_of_decide steps
  obtain ⟨r, t, opened, there, regular, writable, next⟩ := ends_of_decide next
  obtain ⟨_, u, first, rfl, next⟩ := ends_of_decide next
  obtain ⟨_, v, second, rfl, next⟩ := ends_of_decide next
  obtain ⟨_, x, third, rfl, still, next⟩ := ends_of_decide next
  obtain ⟨_, y, last, rfl⟩ := ends_of_decide next
  have run := ReflTransGen.single (FsStep.call 0 (.open (some ([slash, 0x61], 0x202))) r alive trivial opened)
  have here := (File.inode?_eq_some.1 there).2
  have whole : 1536 = (twoChunks.take (3 * 512)).length ∧ twoChunks ≠ [] ∧
    twoChunks.drop (3 * 512) = [1] := by decide +kernel
  have rounds : ReflTransGen (WriteStep 0 1) (⟨t, fun _ => none, [], []⟩ : Writers Bool) _ :=
    .single (.call false twoChunks rfl writable here.1 here.2)
  have rounds := rounds.tail (.call true [3] rfl writable here.1 here.2)
  have rounds := rounds.tail (.round (p := false) rfl whole.2.1 first whole.1)
  rw [whole.2.2] at rounds
  have rounds := rounds.tail (.round (p := true) rfl (by decide) second rfl)
  have rounds := rounds.tail (.round (p := false) rfl (by decide) third rfl)
  have rounds := (rounds.tail (.done (p := true) rfl)).tail (.done (p := false) rfl)
  obtain ⟨w, fs, idle, calls, order, writes⟩ : ∃ w : Writers Bool, w.fs = x ∧ (∀ p, w.rest p = none) ∧
      w.calls = [(false, twoChunks), (true, [3])] ∧ w.chunks.map Prod.fst = [false, true, false] ∧
      ReflTransGen (WriteStep 0 1) ⟨t, fun _ => none, [], []⟩ w := ⟨_, rfl, Bool.rec rfl rfl, rfl, rfl, rounds⟩
  subst fs
  have later := filewrite_steps (idle true) still.1 last
  rw [still.2] at later
  have writes := writes.trans later
  have single : cut (true, [4, 5]) = [(true, [4, 5])] := by
    rw [cut_of_ne _ (by decide)]
    exact congrArg _ (cut_nil true)
  have moved := (shared_file_writes emptyRoot_wellFormed boot run there regular writes idle).1
  have all : w.calls ++ [(true, [4, 5])] = [(false, twoChunks), (true, [3]), (true, [4, 5])] := by rw [calls]; rfl
  have bytes : ([(false, twoChunks), (true, [3]), (true, [4, 5])].map fun c => c.2.length).sum =
    1540 := by decide +kernel
  rw [all, bytes] at moved
  refine ⟨s, t, _, boot, run, writes, all, ?_, moved⟩
  rw [single, List.map_append, order]
  rfl

end MiniOS
