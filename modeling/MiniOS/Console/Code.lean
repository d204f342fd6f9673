import MiniOS.Fs.Code
import MiniOS.Lib.Ring

namespace MiniOS

open Function

/-- `INPUT_BUF`, the size of the buffer of the console. -/
def inputBuf : Nat := 128

/-- The variable `input` of `console.c`, with its read, write and edit index. -/
structure Input where
  buf : Nat → BitVec 8
  r : BitVec 32
  w : BitVec 32
  e : BitVec 32

/-- The loop of `C('U')`, which kills the line. -/
def killLine (s : Input) : Input :=
  if s.e ≠ s.w ∧ s.buf ((s.e - 1).toNat % inputBuf) ≠ 10 then killLine { s with e := s.e - 1 } else s
termination_by (s.e - s.w).toNat
decreasing_by
  rename_i more
  have apart := more.1
  bv_omega

/-- The default case of `consoleintr`, which stores a character. -/
def putChar (s : Input) (c : Int) : Input :=
  if c ≠ 0 ∧ s.e - s.r < 128 then
    let c := if c = 13 then 10 else c
    let s := { s with buf := update s.buf (s.e.toNat % inputBuf) (BitVec.ofInt 8 c), e := s.e + 1 }
    if c = 10 ∨ c = 4 ∨ s.e = s.r + 128 then { s with w := s.e } else s
  else s

/-- The `switch` of `consoleintr` with `C('P')`, `C('U')`, `C('H')` and `'\x7f'`. -/
def consoleChar (s : Input) (c : Int) : Input :=
  if c = 16 then s
  else if c = 21 then killLine s
  else if c = 8 ∨ c = 127 then if s.e ≠ s.w then { s with e := s.e - 1 } else s
  else putChar s c

/-- `consoleintr` with the answers of `getc`. -/
def consoleintr (s : Input) : List Int → Input
  | [] => s
  | c :: rest => if c < 0 then s else consoleintr (consoleChar s c) rest

/-- What `consoleread` has done when it sleeps or returns: the bytes that it stored since
it got the lock, and what is left of `n`. -/
structure ReadPart where
  input : Input
  stored : Bytes
  left : Nat
  sleeps : Bool

/-- The loop of `consoleread` up to `sleep` or to its end, for a process that is not killed. -/
def consolereadLoop (target : Nat) : Nat → Input → ReadPart
  | 0, s => ⟨s, [], 0, false⟩
  | n + 1, s =>
    if s.r = s.w then ⟨s, [], n + 1, true⟩
    else
      let c := s.buf (s.r.toNat % inputBuf)
      let s := { s with r := s.r + 1 }
      if c = 4 then ⟨if n + 1 < target then { s with r := s.r - 1 } else s, [], n + 1, false⟩
      else if c = 10 then ⟨s, [c], n, false⟩
      else
        let rest := consolereadLoop target n s
        { rest with stored := c :: rest.stored }

/-- A call of `consoleread` that has not returned: its `n`, what is left of it and what it has stored. -/
structure Reading where
  n : Int
  left : Nat
  stored : Bytes

namespace Input

/-- The characters of the buffer. -/
def chars (s : Input) : Bytes := Lib.held s.buf inputBuf s.r.toNat (s.e - s.r).toNat

/-- The characters that `consoleread` may take. -/
def pending (s : Input) : Bytes := s.chars.take (s.w - s.r).toNat

end Input

/-- The console with its readers. `committed` has the characters that got below the write
index, `taken` those that the read index has moved past and `delivered` those that were
stored for a reader, with the reader. `reads` are the calls of `consoleread` that have
returned, with `none` for the answer -1. -/
structure ConsoleSystem (ι : Type) where
  input : Input
  reading : ι → Option Reading
  committed : Bytes
  taken : List (ι × BitVec 8)
  delivered : List (ι × BitVec 8)
  reads : List (ι × Int × Option Bytes)

def ConsoleSystem.initial (ι : Type) : ConsoleSystem ι where
  input := ⟨fun _ => 0, 0, 0, 0⟩
  reading _ := none
  committed := []
  taken := []
  delivered := []
  reads := []

variable {ι : Type} [DecidableEq ι]

/-- The rest of a call after a part of it. -/
def Reading.next (c : Reading) (part : ReadPart) : Option Reading :=
  if part.sleeps then some ⟨c.n, part.left, c.stored ++ part.stored⟩ else none

/-- The calls of `consoleintr`, and those of `consoleread` by any processes. -/
inductive ConsoleStep (kills : Bool) (s : ConsoleSystem ι) : ConsoleSystem ι → Prop
  | consoleintr (cs : List Int) :
      ConsoleStep kills s { s with
        input := consoleintr s.input cs
        committed := s.committed ++ (consoleintr s.input cs).pending.drop s.input.pending.length }
  | consoleread (p : ι) (n : Int) : s.reading p = none →
      ConsoleStep kills s { s with reading := update s.reading p (some ⟨n, n.toNat, []⟩) }
  | reads {p : ι} {c : Reading} {part : ReadPart} : s.reading p = some c →
      consolereadLoop c.n.toNat c.left s.input = part →
      ConsoleStep kills s { s with
        input := part.input
        reading := update s.reading p (c.next part)
        taken := s.taken ++ (s.input.pending.take (part.input.r - s.input.r).toNat).map (p, ·)
        delivered := s.delivered ++ part.stored.map (p, ·)
        reads := if part.sleeps then s.reads else s.reads ++ [(p, c.n, some (c.stored ++ part.stored))] }
  | killed {p : ι} {c : Reading} : s.reading p = some c → kills = true → 0 < c.left →
      s.input.r = s.input.w →
      ConsoleStep kills s { s with
        reading := update s.reading p none
        reads := s.reads ++ [(p, c.n, none)] }

end MiniOS
