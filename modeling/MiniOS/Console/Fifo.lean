import MiniOS.Console.Code
import Mathlib.Logic.Relation

namespace MiniOS

open Lib Relation Function

/-- The read index is at most the write index and that at most the edit index, which is
at most the size of the buffer ahead. -/
structure Input.Ok (s : Input) : Prop where
  committed : (s.w - s.r).toNat ≤ (s.e - s.r).toNat
  bound : (s.e - s.r).toNat ≤ inputBuf

namespace Input

variable {s t : Input}

theorem length_chars (s : Input) : s.chars.length = (s.e - s.r).toNat := held_length

theorem length_pending (ok : s.Ok) : s.pending.length = (s.w - s.r).toNat := by
  rw [pending, List.length_take, length_chars]
  exact Nat.min_eq_left ok.committed

theorem pending_eq (ok : s.Ok) : s.pending = held s.buf inputBuf s.r.toNat (s.w - s.r).toNat := held_take ok.committed

/-- What `consoleintr` makes of the input: the committed characters stay. -/
structure Edits (s t : Input) : Prop where
  ok : t.Ok
  r : t.r = s.r
  kept : s.pending <+: t.pending

theorem Ok.refl (ok : s.Ok) : s.Edits s := ⟨ok, rfl, List.prefix_rfl⟩

theorem Edits.trans {u : Input} (first : s.Edits t) (second : t.Edits u) : s.Edits u :=
  ⟨second.ok, second.r.trans first.r, first.kept.trans second.kept⟩

/-- The last character that is not committed is taken back. -/
theorem Ok.erase (ok : s.Ok) (more : s.e ≠ s.w) : s.Edits { s with e := s.e - 1 } := by
  obtain ⟨committed, bound⟩ := ok
  have fewer : (s.e - s.r).toNat = (s.e - 1 - s.r).toNat + 1 := by bv_omega
  have still : (s.w - s.r).toNat ≤ (s.e - 1 - s.r).toNat := by bv_omega
  have less : (s.e - 1 - s.r).toNat ≤ inputBuf := by omega
  have ok' : Ok { s with e := s.e - 1 } := ⟨still, less⟩
  have same : s.pending = pending { s with e := s.e - 1 } := by
    rw [pending_eq ⟨committed, bound⟩, pending_eq ok']
  exact ⟨ok', rfl, same ▸ List.prefix_rfl⟩

theorem Ok.killLine (ok : s.Ok) : s.Edits (killLine s) := by
  fun_induction MiniOS.killLine s with
  | case1 s more ih => exact (ok.erase more.1).trans (ih (ok.erase more.1).ok)
  | case2 s => exact ok.refl

theorem count_put (room : (s.e - s.r).toNat < inputBuf) : (s.e + 1 - s.r).toNat = (s.e - s.r).toNat + 1 := by
  rw [inputBuf] at room
  bv_omega

/-- A character is stored behind the others. -/
theorem chars_put (room : (s.e - s.r).toNat < inputBuf) (c : BitVec 8) :
    chars { s with buf := update s.buf (s.e.toNat % inputBuf) c, e := s.e + 1 } = s.chars ++ [c] := by
  have place : s.e.toNat % inputBuf = (s.r.toNat + (s.e - s.r).toNat) % inputBuf := by
    have whole : (s.r.toNat + (s.e - s.r).toNat) % 2 ^ 32 = s.e.toNat := by bv_omega
    rw [← whole, Nat.mod_mod_of_dvd _ (by decide)]
  rw [chars, count_put room, place]
  exact held_push room c

theorem Ok.put (ok : s.Ok) (room : (s.e - s.r).toNat < inputBuf) (c : BitVec 8) :
    s.Edits { s with buf := update s.buf (s.e.toNat % inputBuf) c, e := s.e + 1 } := by
  have more := count_put room
  have same : s.pending = pending { s with buf := update s.buf (s.e.toNat % inputBuf) c, e := s.e + 1 } := by
    rw [pending, pending, chars_put room c, List.take_append_of_le_length (length_chars s ▸ ok.committed)]
  exact ⟨⟨ok.committed.trans (more ▸ Nat.le_succ _), more ▸ room⟩, rfl, same ▸ List.prefix_rfl⟩

theorem edits_commit (room : (s.e - s.r).toNat < inputBuf) (c : BitVec 8) :
    s.Edits { s with buf := update s.buf (s.e.toNat % inputBuf) c, e := s.e + 1, w := s.e + 1 } := by
  have more := count_put room
  have same : chars { s with buf := update s.buf (s.e.toNat % inputBuf) c, e := s.e + 1, w := s.e + 1 } =
      s.chars ++ [c] := chars_put room c
  refine ⟨⟨Nat.le_refl _, more ▸ room⟩, rfl, ?_⟩
  have whole : pending { s with buf := update s.buf (s.e.toNat % inputBuf) c, e := s.e + 1, w := s.e + 1 } =
      s.chars ++ [c] := by
    rw [pending, same]
    refine List.take_of_length_le ?_
    rw [List.length_append, length_chars, List.length_singleton]
    exact Nat.le_of_eq more.symm
  rw [whole]
  exact (List.take_prefix _ _).trans (List.prefix_append _ _)

theorem Ok.putChar (ok : s.Ok) (c : Int) : s.Edits (putChar s c) := by
  unfold MiniOS.putChar
  split
  · rename_i room
    have room : (s.e - s.r).toNat < inputBuf := BitVec.lt_def.1 room.2
    generalize (if c = 13 then 10 else c) = c
    dsimp only
    split
    · exact edits_commit room _
    · exact ok.put room _
  · exact ok.refl

theorem Ok.consoleChar (ok : s.Ok) (c : Int) : s.Edits (consoleChar s c) := by
  unfold MiniOS.consoleChar
  split
  · exact ok.refl
  split
  · exact ok.killLine
  split
  · split
    · rename_i more
      exact ok.erase more
    · exact ok.refl
  · exact ok.putChar c

theorem Ok.consoleintr (ok : s.Ok) (cs : List Int) : s.Edits (consoleintr s cs) := by
  induction cs generalizing s with
  | nil => exact ok.refl
  | cons c rest ih =>
    unfold MiniOS.consoleintr
    split
    · exact ok.refl
    · exact (ok.consoleChar c).trans (ih (ok.consoleChar c).ok)

/-- The oldest character is taken. -/
theorem Ok.take (ok : s.Ok) (more : s.r ≠ s.w) : Ok { s with r := s.r + 1 } ∧
    s.pending = s.buf (s.r.toNat % inputBuf) :: pending { s with r := s.r + 1 } := by
  obtain ⟨committed, bound⟩ := ok
  have fewer : (s.w - s.r).toNat = (s.w - (s.r + 1)).toNat + 1 := by bv_omega
  have fewer' : (s.e - s.r).toNat = (s.e - (s.r + 1)).toNat + 1 := by bv_omega
  have still : (s.w - (s.r + 1)).toNat ≤ (s.e - (s.r + 1)).toNat := by omega
  have less : (s.e - (s.r + 1)).toNat ≤ inputBuf := by omega
  have ok' : Ok { s with r := s.r + 1 } := ⟨still, less⟩
  refine ⟨ok', ?_⟩
  rw [pending_eq ⟨committed, bound⟩, pending_eq ok', fewer, held_pop]
  dsimp only
  rw [BitVec.toNat_add, held_mod (by decide)]
  rfl

end Input

/-- What a part of `consoleread` does. Either it stores the characters that it takes, none
of which is `C('D')`, or it takes that as its first character. -/
structure ReadPart.Takes (part : ReadPart) (target n : Nat) (s : Input) (passed : Bytes) : Prop where
  ok : part.input.Ok
  moves : part.input.r = s.r + BitVec.ofNat 32 passed.length
  pending : s.pending = passed ++ part.input.pending
  left : part.left + part.stored.length = n
  stores : part.stored = passed ∧ 4 ∉ passed ∧ (part.sleeps = false → part.stored = [] → n = 0 ∨ n < target) ∨
    passed = [4] ∧ part.stored = [] ∧ part.sleeps = false ∧ n = target ∧ 0 < n

theorem consolereadLoop_takes {target n : Nat} {s : Input} (ok : s.Ok) (few : n ≤ target) :
    ∃ passed, (consolereadLoop target n s).Takes target n s passed := by
  induction n generalizing s with
  | zero => exact ⟨[], ok, (BitVec.add_zero _).symm, rfl, rfl, .inl ⟨rfl, List.not_mem_nil, fun _ _ => .inl rfl⟩⟩
  | succ n ih =>
    unfold consolereadLoop
    split
    · exact ⟨[], ok, (BitVec.add_zero _).symm, rfl, rfl, .inl ⟨rfl, List.not_mem_nil, nofun⟩⟩
    rename_i more
    obtain ⟨ok', first⟩ := ok.take more
    dsimp only
    split
    · rename_i eof
      split
      · rename_i less
        have back : ({ s with r := s.r + 1 - 1 } : Input) = s := by rw [BitVec.add_sub_cancel]
        rw [back]
        exact ⟨[], ok, (BitVec.add_zero _).symm, rfl, rfl, .inl ⟨rfl, List.not_mem_nil, fun _ _ => .inr less⟩⟩
      · rename_i whole
        rw [eof] at first
        exact ⟨[4], ok', rfl, first, rfl, .inr ⟨rfl, rfl, rfl, by omega, Nat.succ_pos n⟩⟩
    rename_i plain
    split
    · rename_i newline
      refine ⟨[s.buf (s.r.toNat % inputBuf)], ok', rfl, first, rfl, .inl ⟨rfl, ?_, nofun⟩⟩
      exact fun member => plain (List.mem_singleton.1 member).symm
    · obtain ⟨passed, takes⟩ := ih ok' (Nat.le_of_succ_le few)
      refine ⟨s.buf (s.r.toNat % inputBuf) :: passed, takes.ok, ?_, ?_, ?_, ?_⟩
      · rw [takes.moves, List.length_cons]
        bv_omega
      · rw [first, takes.pending]
        rfl
      · have left := takes.left
        dsimp only [List.length_cons]
        omega
      · rcases takes.stores with ⟨same, none, _⟩ | ⟨_, _, _, same, _⟩
        · refine .inl ⟨congrArg _ same, fun member => ?_, nofun⟩
          rcases List.mem_cons.1 member with here | there
          · exact plain here.symm
          · exact none there
        · omega

/-- The characters that the read index has moved past. -/
theorem ReadPart.Takes.taken {part : ReadPart} {target n : Nat} {s : Input} {passed : Bytes}
    (takes : part.Takes target n s passed) (ok : s.Ok) : s.pending.take (part.input.r - s.r).toNat = passed := by
  have bound : passed.length ≤ 128 := by
    have length := congrArg List.length takes.pending
    rw [Input.length_pending ok, List.length_append] at length
    have most : (s.w - s.r).toNat ≤ 128 := ok.committed.trans ok.bound
    omega
  have moved : (part.input.r - s.r).toNat = passed.length := by
    rw [takes.moves]
    bv_omega
  rw [moved, takes.pending, List.take_left]

variable {ι : Type} [DecidableEq ι] {kills : Bool} {s t : ConsoleSystem ι} {p : ι} {c : Reading} {part : ReadPart}

/-- The bytes that a call has stored and what is left of its `n` make up its `n`. -/
def Reading.Whole (c : Reading) : Prop := c.left + c.stored.length = c.n.toNat

theorem whole_update {reading : ι → Option Reading} {next : Option Reading}
    (calls : ∀ p c, reading p = some c → c.Whole) (here : ∀ c, next = some c → c.Whole) (q : ι) (c : Reading)
    (call : update reading p next q = some c) :
    c.Whole := by
  by_cases same : q = p
  · rw [same, update_self] at call
    exact here c call
  · rw [update_of_ne same] at call
    exact calls q c call

namespace ConsoleSystem

/-- What the calls of a process have returned so far. -/
def returned (s : ConsoleSystem ι) (p : ι) : Bytes := (s.reads.filter (·.1 = p)).flatMap fun r => r.2.2.getD []

/-- What the call that a process is in has stored so far. -/
def current (s : ConsoleSystem ι) (p : ι) : Bytes := ((s.reading p).map Reading.stored).getD []

structure Fifo (kills : Bool) (s : ConsoleSystem ι) : Prop where
  ok : s.input.Ok
  calls : ∀ p c, s.reading p = some c → c.Whole
  committed : s.committed = s.taken.map Prod.snd ++ s.input.pending
  delivered : s.delivered = s.taken.filter (·.2 ≠ 4)
  results : kills = false → ∀ p, s.returned p ++ s.current p = (s.delivered.filter (·.1 = p)).map Prod.snd
  eofs : (s.taken.filter (·.2 = 4)).map Prod.fst = (s.reads.filter fun r => 0 < r.2.1 ∧ r.2.2 = some []).map Prod.fst

namespace Fifo

theorem initial : (ConsoleSystem.initial ι).Fifo kills where
  ok := ⟨Nat.le_of_eq rfl, by simp [ConsoleSystem.initial]⟩
  calls := nofun
  committed := by simp [ConsoleSystem.initial, Input.pending]
  delivered := rfl
  results _ _ := rfl
  eofs := rfl

theorem consoleintr (fifo : s.Fifo kills) (cs : List Int) : Fifo kills { s with
    input := consoleintr s.input cs
    committed := s.committed ++ (consoleintr s.input cs).pending.drop s.input.pending.length } := by
  have edits := fifo.ok.consoleintr cs
  refine ⟨edits.ok, fifo.calls, ?_, fifo.delivered, fifo.results, fifo.eofs⟩
  obtain ⟨new, same⟩ := edits.kept
  dsimp only
  rw [fifo.committed, ← same, List.drop_left, List.append_assoc]

theorem consoleread (fifo : s.Fifo kills) (idle : s.reading p = none) (n : Int) :
    Fifo kills { s with reading := update s.reading p (some ⟨n, n.toNat, []⟩) } := by
  refine ⟨fifo.ok, whole_update fifo.calls fun c here => ?_, fifo.committed, fifo.delivered,
    fun alive q => ?_, fifo.eofs⟩
  · cases here
    exact Nat.add_zero _
  · have results := fifo.results alive q
    by_cases same : q = p
    · subst same
      simp only [current, idle, update_self] at results ⊢
      exact results
    · simp only [current, update_of_ne same]
      exact results

theorem killed (fifo : s.Fifo kills) (kill : kills = true) :
    Fifo kills { s with reading := update s.reading p none, reads := s.reads ++ [(p, c.n, none)] } := by
  refine ⟨fifo.ok, whole_update fifo.calls nofun, fifo.committed, fifo.delivered, fun alive => ?_, ?_⟩
  · rw [alive] at kill
    cases kill
  · dsimp only
    rw [fifo.eofs, List.filter_append, List.map_append]
    simp

omit [DecidableEq ι] in
theorem map_snd_own (l : Bytes) (p : ι) : (l.map (p, ·)).map Prod.snd = l := by
  rw [List.map_map]
  exact List.map_id l

theorem filter_own (l : Bytes) (p : ι) : (l.map (p, ·)).filter (·.1 = p) = l.map (p, ·) :=
  List.filter_eq_self.2 fun x member => by
    obtain ⟨_, _, rfl⟩ := List.mem_map.1 member
    exact decide_eq_true rfl

theorem filter_other (l : Bytes) {p q : ι} (other : q ≠ p) : (l.map (p, ·)).filter (·.1 = q) = [] :=
  List.filter_eq_nil_iff.2 fun x member => by
    obtain ⟨_, _, rfl⟩ := List.mem_map.1 member
    exact fun same => other (of_decide_eq_true same).symm

omit [DecidableEq ι] in
/-- The characters that a part takes are those that it stores, and maybe `C('D')`. -/
theorem stored_eq {target n : Nat} {input : Input} {passed : Bytes}
    (takes : part.Takes target n input passed) (p : ι) :
    part.stored.map (p, ·) = (passed.map (p, ·)).filter (·.2 ≠ 4) := by
  rcases takes.stores with ⟨same, none, _⟩ | ⟨rfl, same, _⟩
  · rw [same, eq_comm, List.filter_eq_self]
    intro x member
    obtain ⟨c, inside, rfl⟩ := List.mem_map.1 member
    exact decide_eq_true fun here => none (here ▸ inside)
  · rw [same]
    rfl

theorem reads (fifo : s.Fifo kills) (here : s.reading p = some c)
    (call : consolereadLoop c.n.toNat c.left s.input = part) :
    Fifo kills { s with
      input := part.input
      reading := update s.reading p (c.next part)
      taken := s.taken ++ (s.input.pending.take (part.input.r - s.input.r).toNat).map (p, ·)
      delivered := s.delivered ++ part.stored.map (p, ·)
      reads := if part.sleeps then s.reads else s.reads ++ [(p, c.n, some (c.stored ++ part.stored))] } := by
  have calls : c.left + c.stored.length = c.n.toNat := fifo.calls p c here
  obtain ⟨passed, takes⟩ := consolereadLoop_takes fifo.ok (Nat.le_of_add_right_le (Nat.le_of_eq calls))
  rw [call] at takes
  rw [takes.taken fifo.ok]
  have left := takes.left
  refine ⟨takes.ok, whole_update fifo.calls fun c' next => ?_, ?_, ?_, fun alive q => ?_, ?_⟩
  · unfold Reading.next at next
    split at next
    · cases next
      rw [Reading.Whole, List.length_append]
      dsimp only
      omega
    · cases next
  · dsimp only
    rw [fifo.committed, takes.pending, List.map_append, map_snd_own, List.append_assoc]
  · dsimp only
    rw [fifo.delivered, stored_eq takes p, List.filter_append]
  · have results := fifo.results alive q
    simp only [returned, current] at results ⊢
    rw [List.filter_append, List.map_append, ← results]
    by_cases same : q = p
    · subst same
      rw [here, update_self, filter_own, map_snd_own, Reading.next]
      cases part.sleeps with
      | true => exact (List.append_assoc ..).symm
      | false =>
        simp
    · rw [update_of_ne same, filter_other _ same]
      cases part.sleeps with
      | true => simp
      | false =>
        simp [Ne.symm same]
  · dsimp only
    rw [List.filter_append, List.map_append, fifo.eofs]
    rcases takes.stores with ⟨same, none, empty⟩ | ⟨rfl, same, returns, whole, positive⟩
    · have taken : (passed.map (p, ·)).filter (·.2 = 4) = [] := by
        refine List.filter_eq_nil_iff.2 fun x member => ?_
        obtain ⟨c, inside, rfl⟩ := List.mem_map.1 member
        exact fun here => none (of_decide_eq_true here ▸ inside)
      rw [taken, List.map_nil, List.append_nil]
      cases sleeps : part.sleeps with
      | true => rfl
      | false =>
        have nonempty : 0 < c.n → c.stored = [] → part.stored ≠ [] := by
          intro positive before now
          rw [before, List.length_nil] at calls
          have none := empty sleeps now
          omega
        simpa [List.filter_append] using nonempty
    · have before : c.stored = [] := List.eq_nil_of_length_eq_zero (by omega)
      have positive : 0 < c.n := by omega
      rw [returns, before, same]
      simp [List.filter_append, positive]

theorem step (fifo : s.Fifo kills) (step : ConsoleStep kills s t) : t.Fifo kills := by
  cases step with
  | consoleintr cs => exact fifo.consoleintr cs
  | consoleread p n idle => exact fifo.consoleread idle n
  | reads here call => exact fifo.reads here call
  | killed here kill _ _ => exact fifo.killed kill

theorem run (run : ReflTransGen (ConsoleStep kills) (.initial ι) s) : s.Fifo kills := by
  induction run with
  | refl => exact .initial
  | tail _ last ih => exact ih.step last

end Fifo

end ConsoleSystem

/-- The indices stay in order however they wrap around, `consoleintr` leaves the committed
characters alone, and as long as no reader is killed the calls of `consoleread` get the
committed characters in their order, each `C('D')` as an empty answer. -/
theorem console_input_in_order (run : ReflTransGen (ConsoleStep kills) (.initial ι) s) :
    (s.input.w - s.input.r).toNat ≤ (s.input.e - s.input.r).toNat ∧ (s.input.e - s.input.r).toNat ≤ inputBuf ∧
    (∀ cs, (consoleintr s.input cs).r = s.input.r ∧ s.input.pending <+: (consoleintr s.input cs).pending) ∧
    (kills = false →
      s.committed = s.taken.map Prod.snd ++ s.input.pending ∧
      s.delivered = s.taken.filter (·.2 ≠ 4) ∧
      (∀ p, s.returned p ++ s.current p = (s.delivered.filter (·.1 = p)).map Prod.snd) ∧
      (s.taken.filter (·.2 = 4)).map Prod.fst =
        (s.reads.filter fun r => 0 < r.2.1 ∧ r.2.2 = some []).map Prod.fst) := by
  have fifo := ConsoleSystem.Fifo.run run
  refine ⟨fifo.ok.committed, fifo.ok.bound, fun cs => ?_, fun alive => ?_⟩
  · have edits := fifo.ok.consoleintr cs
    exact ⟨edits.r, edits.kept⟩
  · exact ⟨fifo.committed, fifo.delivered, fifo.results alive, fifo.eofs⟩

/-- Somebody types `hi` and `C('D')`, which takes two calls. -/
theorem console_input_in_order_two_reads :
    ∃ s : ConsoleSystem Nat, ReflTransGen (ConsoleStep false) (.initial Nat) s ∧
    s.reads = [(0, 10, some [104, 105]), (0, 10, some [])] ∧
    s.committed = s.taken.map Prod.snd ++ s.input.pending := by
  have typed : ConsoleStep false (.initial Nat) _ := .consoleintr [104, 105, 4]
  have run := ((ReflTransGen.single typed).tail (.consoleread 0 10 rfl)).tail (.reads (p := 0) rfl rfl)
  have run := (run.tail (.consoleread 0 10 rfl)).tail (.reads (p := 0) rfl rfl)
  exact ⟨_, run, rfl, ((console_input_in_order run).2.2.2 rfl).1⟩

end MiniOS
