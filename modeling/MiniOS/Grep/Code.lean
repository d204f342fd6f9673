import MiniOS.Kalloc
import MiniOS.Memmove

namespace MiniOS.Grep

open Function

/-- The characters that have a meaning of their own in a pattern, and the newline. -/
def caret : BitVec 8 := 0x5E
def dot : BitVec 8 := 0x2E
def asterisk : BitVec 8 := 0x2A
def dollar : BitVec 8 := 0x24
def newline : BitVec 8 := 0x0A

section Match

/- The pattern is in the array `re` and the text in the array `text`; pointers into
them are indices. -/
variable (re text : Nat → BitVec 8)

mutual

/-- `matchhere`, with a bound on the depth of the calls and the rounds of the loops. -/
def matchhere : Nat → Nat → Nat → Except Stop Bool
  | 0, _, _ => .error .endlessLoop
  | fuel + 1, i, j =>
    if re i = 0 then .ok true
    else if re (i + 1) = asterisk then matchstar fuel (re i) (i + 2) j
    else if re i = dollar ∧ re (i + 1) = 0 then .ok (text j = 0)
    else if text j ≠ 0 ∧ (re i = dot ∨ re i = text j) then matchhere fuel (i + 1) (j + 1)
    else .ok false

def matchstar : Nat → BitVec 8 → Nat → Nat → Except Stop Bool
  | 0, _, _, _ => .error .endlessLoop
  | fuel + 1, c, i, j => do
    if ← matchhere fuel i j then .ok true
    else if text j ≠ 0 ∧ (text j = c ∨ c = dot) then matchstar fuel c i (j + 1)
    else .ok false

end

/-- The loop of `match`. -/
def matchFrom : Nat → Nat → Nat → Except Stop Bool
  | 0, _, _ => .error .endlessLoop
  | fuel + 1, i, j => do
    if ← matchhere re text fuel i j then .ok true
    else if text j ≠ 0 then matchFrom fuel i (j + 1)
    else .ok false

/-- `match`. -/
def matchText (fuel i j : Nat) : Except Stop Bool :=
  if re i = caret then matchhere re text fuel (i + 1) j else matchFrom re text fuel i j

end Match

/-- `strchr`, with the number of bytes that it may look at. -/
def strchr (mem : Nat → BitVec 8) (c : BitVec 8) : Nat → Nat → Except Stop (Option Nat)
  | 0, _ => .error .endlessLoop
  | rounds + 1, s => if mem s = 0 then .ok none else if mem s = c then .ok (some s) else strchr mem c rounds (s + 1)

/-- `sizeof(buf)`. -/
def bufsize : Nat := 1024

/-- What `grep` has in `buf`, and what it has written. -/
structure Sweep where
  buf : Nat → BitVec 8
  out : List (BitVec 8)

/-- The bytes of `buf` from `p` to `q`. -/
def bytesAt (buf : Nat → BitVec 8) (p n : Nat) : List (BitVec 8) := (List.range n).map fun i => buf (p + i)

/-- What `read` puts at `buf + m`. -/
def place (buf : Nat → BitVec 8) (m : Nat) (chunk : List (BitVec 8)) : Nat → BitVec 8 :=
  fun a => if m ≤ a then chunk.getD (a - m) (buf a) else buf a

variable (re : Nat → BitVec 8)

/-- The inner loop of `grep`, with the last value of `p`. -/
def grepLines (fuel : Nat) : Nat → Nat → Sweep → Except Stop (Nat × Sweep)
  | 0, _, _ => .error .endlessLoop
  | rounds + 1, p, s => do
    match ← strchr s.buf newline bufsize p with
    | none => .ok (p, s)
    | some q =>
      let buf := update s.buf q 0
      if ← matchText re buf fuel 0 p then
        let buf := update buf q newline
        grepLines fuel rounds (q + 1) ⟨buf, s.out ++ bytesAt buf p (q + 1 - p)⟩
      else grepLines fuel rounds (q + 1) ⟨buf, s.out⟩

/-- One round of the outer loop of `grep`, for the bytes that `read` returns. -/
def grepChunk (fuel : Nat) (chunk : List (BitVec 8)) (m : Nat) (s : Sweep) : Except Stop (Nat × Sweep) := do
  let m := m + chunk.length
  let buf := update (place s.buf (m - chunk.length) chunk) m 0
  let (p, s) ← grepLines re fuel bufsize 0 ⟨buf, s.out⟩
  let m := if p = 0 then 0 else m
  if m > 0 then .ok (m - p, { s with buf := copyUp (m - p) p 0 s.buf })
  else .ok (m, s)

/-- The outer loop of `grep`, for the answers of `read` up to the end of the file. -/
def grepFrom (fuel : Nat) : List (List (BitVec 8)) → Nat → Sweep → Except Stop Sweep
  | [], _, s => .ok s
  | chunk :: chunks, m, s => do
    let (m, s) ← grepChunk re fuel chunk m s
    grepFrom fuel chunks m s

/-- `grep` with what it finds in `buf`, and what it writes. -/
def grep (fuel : Nat) (buf : Nat → BitVec 8) (chunks : List (List (BitVec 8))) : Except Stop (List (BitVec 8)) := do
  let s ← grepFrom re fuel chunks 0 ⟨buf, []⟩
  .ok s.out

end MiniOS.Grep
