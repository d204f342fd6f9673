import MiniOS.Kalloc
import Mathlib.Data.List.Basic
import Mathlib.Tactic.Tauto

namespace MiniOS

variable {c : Char} {cs s toks : List Char}

/-- `struct cmd` with its five types, for words of type `α`. -/
inductive Cmd (α : Type)
  | exec (argv : List α)
  | redir (cmd : Cmd α) (file : α) (mode : Nat) (fd : Nat)
  | pipe (left right : Cmd α)
  | list (left right : Cmd α)
  | back (cmd : Cmd α)

/-- `MAXARGS`, the size of the array `argv`. -/
def maxargs : Nat := 10

/-- `O_RDONLY`. -/
def oRdonly : Nat := 0x000

/-- `O_WRONLY|O_CREATE`. -/
def oWronlyCreate : Nat := 0x001 ||| 0x200

def whitespace : List Char := [' ', '\t', '\r', '\n', Char.ofNat 11]

def symbols : List Char := ['<', '|', '>', '&', ';', '(', ')']

/-- A character that does not end a word. -/
def wordChar (c : Char) : Bool := c ∉ whitespace ∧ c ∉ symbols

/-- The loop that skips whitespace. A pointer into the line is modelled by the characters
from it up to `es`, where the terminating 0 is. -/
def skipBlanks (s : List Char) : List Char := s.dropWhile (· ∈ whitespace)

/-- The pointers `q` and `eq` to the start and the end of a word. -/
structure Span where
  q : List Char
  eq : List Char

/-- What `gettoken` returns and stores. -/
structure Gettoken where
  ret : Char
  span : Span
  rest : List Char

/-- The rest of `gettoken` after whitespace is skipped. -/
def tokenAt : List Char → Gettoken
  | [] => ⟨'\x00', ⟨[], []⟩, []⟩
  | c :: cs =>
    if c ∈ ['|', '(', ')', ';', '&', '<'] then ⟨c, ⟨c :: cs, cs⟩, skipBlanks cs⟩
    else if c = '>' then
      if cs.head? = some '>' then ⟨'+', ⟨c :: cs, cs.tail⟩, skipBlanks cs.tail⟩ else ⟨'>',
        ⟨c :: cs, cs⟩, skipBlanks cs⟩
    else ⟨'a', ⟨c :: cs, (c :: cs).dropWhile wordChar⟩, skipBlanks ((c :: cs).dropWhile wordChar)⟩

def gettoken (s : List Char) : Gettoken := tokenAt (skipBlanks s)

/-- `peek`, which leaves `skipBlanks` in `*ps`. -/
def peek (s : List Char) (toks : List Char) : Bool := (skipBlanks s).head?.any (· ∈ toks)

theorem skipBlanks_suffix (s : List Char) : skipBlanks s <:+ s := List.dropWhile_suffix _

theorem tokenAt_suffix (s : List Char) : (tokenAt s).rest <:+ s := by
  cases s with
  | nil => exact List.suffix_rfl
  | cons c cs =>
    have one : cs <:+ c :: cs := List.suffix_cons c cs
    rw [tokenAt]
    split
    · exact (skipBlanks_suffix cs).trans one
    split
    · split
      · exact ((skipBlanks_suffix _).trans (List.tail_suffix cs)).trans one
      · exact (skipBlanks_suffix cs).trans one
    · exact (skipBlanks_suffix _).trans (List.dropWhile_suffix _)

theorem wordChar_of (visible : c ∉ whitespace) (other : c ∉ ['|', '(', ')', ';', '&', '<']) (other' : c ≠ '>') :
    wordChar c = true := by
  refine decide_eq_true ⟨visible, ?_⟩
  simp only [symbols, List.mem_cons, List.not_mem_nil, not_or] at other ⊢
  tauto

theorem tokenAt_lt (visible : c ∉ whitespace) :
    (tokenAt (c :: cs)).rest.length < (c :: cs).length := by
  have less {s : List Char} (suffix : s <:+ cs) : s.length < (c :: cs).length := Nat.lt_succ_of_le suffix.length_le
  rw [tokenAt]
  split
  · exact less (skipBlanks_suffix cs)
  rename_i other
  split
  · split
    · exact less ((skipBlanks_suffix _).trans (List.tail_suffix cs))
    · exact less (skipBlanks_suffix cs)
  · rename_i other'
    rw [List.dropWhile_cons_of_pos (wordChar_of visible other other')]
    exact less ((skipBlanks_suffix _).trans (List.dropWhile_suffix _))

theorem gettoken_suffix (s : List Char) : (gettoken s).rest <:+ s := (tokenAt_suffix _).trans (skipBlanks_suffix s)

theorem skipBlanks_cons_blank (blank : c ∈ whitespace) :
    skipBlanks (c :: cs) = skipBlanks cs := List.dropWhile_cons_of_pos (decide_eq_true blank)

theorem skipBlanks_cons_visible (visible : c ∉ whitespace) :
    skipBlanks (c :: cs) = c :: cs := List.dropWhile_cons_of_neg (mt of_decide_eq_true visible)

theorem visible_of_skipBlanks (skipped : skipBlanks s = c :: cs) : c ∉ whitespace := by
  induction s with
  | nil => cases skipped
  | cons d s ih =>
    by_cases blank : d ∈ whitespace
    · exact ih ((skipBlanks_cons_blank blank).symm.trans skipped)
    · rw [skipBlanks_cons_visible blank] at skipped
      cases skipped
      exact blank

theorem skipBlanks_skipBlanks (s : List Char) : skipBlanks (skipBlanks s) = skipBlanks s := by
  cases skipped : skipBlanks s with
  | nil => rfl
  | cons c cs =>
    exact skipBlanks_cons_visible (visible_of_skipBlanks skipped)

theorem gettoken_lt (more : skipBlanks s ≠ []) : (gettoken s).rest.length < s.length := by
  cases skipped : skipBlanks s with
  | nil => exact absurd skipped more
  | cons c cs =>
    rw [gettoken, skipped]
    exact Nat.lt_of_lt_of_le (tokenAt_lt (visible_of_skipBlanks skipped)) (skipped ▸ (skipBlanks_suffix s).length_le)

theorem skipBlanks_of_peek (found : peek s toks = true) : skipBlanks (skipBlanks s) ≠ [] := by
  rw [skipBlanks_skipBlanks]
  intro none
  rw [peek, none] at found
  cases found

theorem skipBlanks_of_ret (more : (gettoken s).ret ≠ '\x00') : skipBlanks s ≠ [] := by
  intro none
  rw [gettoken, none] at more
  exact more rfl

theorem gettoken_lt_of_peek (found : peek s toks = true) :
    (gettoken (skipBlanks s)).rest.length < s.length :=
  Nat.lt_of_lt_of_le (gettoken_lt (skipBlanks_of_peek found)) (skipBlanks_suffix s).length_le

/-- A pointer that was moved on. -/
abbrev Rest (s : List Char) := { rest : List Char // rest <:+ s }

/-- The pointer after `peek` and `gettoken`. -/
def afterToken (s : List Char) : Rest s :=
  ⟨(gettoken (skipBlanks s)).rest, (gettoken_suffix _).trans (skipBlanks_suffix s)⟩

def afterPeek (s : List Char) : Rest s := ⟨skipBlanks s, skipBlanks_suffix s⟩

def Rest.further {s : List Char} (rest : Rest s) (more : Rest rest.1) : Rest s := ⟨more.1, more.2.trans rest.2⟩

theorem Rest.length_le (rest : Rest s) : rest.1.length ≤ s.length := rest.2.length_le

/-- A redirection, with what `parseredirs` does for the token. -/
def redircmd (tok : Char) (cmd : Cmd Span) (file : Span) : Cmd Span :=
  if tok = '<' then .redir cmd file oRdonly 0
  else if tok = '>' then .redir cmd file oWronlyCreate 1
  else if tok = '+' then .redir cmd file oWronlyCreate 1
  else cmd

def parseredirs (cmd : Cmd Span) (s : List Char) : Except Stop (Cmd Span × Rest s) :=
  if found : peek s ['<', '>'] then
    if (gettoken (afterToken s).1).ret ≠ 'a' then .error (.panic "missing file for redirection")
    else do
      let file := gettoken (afterToken s).1
      let out ← parseredirs (redircmd (gettoken (skipBlanks s)).ret cmd file.span) file.rest
      .ok (out.1, (afterToken s).further (Rest.further ⟨file.rest, gettoken_suffix _⟩ out.2))
  else .ok (cmd, afterPeek s)
termination_by s.length
decreasing_by exact Nat.lt_of_le_of_lt (gettoken_suffix _).length_le (gettoken_lt_of_peek found)

/-- An argument is stored in the `struct execcmd`, which the redirections point to. -/
def Cmd.addArg {α : Type} (arg : α) : Cmd α → Cmd α
  | exec argv => exec (argv ++ [arg])
  | redir cmd file mode fd => redir (cmd.addArg arg) file mode fd
  | cmd => cmd

/-- The loop of `parseexec`. -/
def parseargs (argc : Nat) (ret : Cmd Span) (s : List Char) : Except Stop (Cmd Span × Rest s) :=
  if peek s ['|', ')', '&', ';'] then .ok (ret, afterPeek s)
  else if stop : (gettoken (skipBlanks s)).ret = '\x00' then .ok (ret, afterToken s)
  else if (gettoken (skipBlanks s)).ret ≠ 'a' then .error (.panic "syntax")
  else if argc + 1 ≥ maxargs then .error (.panic "too many args")
  else do
    let redirs ← parseredirs (ret.addArg (gettoken (skipBlanks s)).span) (afterToken s).1
    let out ← parseargs (argc + 1) redirs.1 redirs.2.1
    .ok (out.1, (afterToken s).further (redirs.2.further out.2))
termination_by s.length
decreasing_by
  have less := gettoken_lt (skipBlanks_of_ret stop)
  exact Nat.lt_of_le_of_lt redirs.2.length_le (Nat.lt_of_lt_of_le less (skipBlanks_suffix s).length_le)

/-- The loop of `parseline`. -/
def parsebacks (cmd : Cmd Span) (s : List Char) : Cmd Span × Rest s :=
  if found : peek s ['&'] then
    let out := parsebacks (.back cmd) (afterToken s).1
    (out.1, (afterToken s).further out.2)
  else (cmd, afterPeek s)
termination_by s.length
decreasing_by exact gettoken_lt_of_peek found

mutual

def parseline (s : List Char) : Except Stop (Cmd Span × Rest s) := do
  let first ← parsepipe s
  let backs := parsebacks first.1 first.2.1
  if found : peek backs.2.1 [';'] then
    let right ← parseline (afterToken backs.2.1).1
    .ok (.list backs.1 right.1, first.2.further (backs.2.further ((afterToken backs.2.1).further right.2)))
  else .ok (backs.1, first.2.further (backs.2.further (afterPeek backs.2.1)))
termination_by (s.length, 3)
decreasing_by
  · exact Prod.Lex.right _ (by decide)
  · exact Prod.Lex.left _ _ (Nat.lt_of_lt_of_le (gettoken_lt_of_peek found) (first.2.further backs.2).length_le)

def parsepipe (s : List Char) : Except Stop (Cmd Span × Rest s) := do
  let first ← parseexec s
  if found : peek first.2.1 ['|'] then
    let right ← parsepipe (afterToken first.2.1).1
    .ok (.pipe first.1 right.1, first.2.further ((afterToken first.2.1).further right.2))
  else .ok (first.1, first.2.further (afterPeek first.2.1))
termination_by (s.length, 2)
decreasing_by
  · exact Prod.Lex.right _ (by decide)
  · exact Prod.Lex.left _ _ (Nat.lt_of_lt_of_le (gettoken_lt_of_peek found) first.2.length_le)

def parseexec (s : List Char) : Except Stop (Cmd Span × Rest s) :=
  -- The whitespace that `peek` skips here is skipped by the next `peek` as well.
  if peek s ['('] then parseblock s
  else do
    let redirs ← parseredirs (.exec []) s
    let out ← parseargs 0 redirs.1 redirs.2.1
    .ok (out.1, redirs.2.further out.2)
termination_by (s.length, 1)
decreasing_by exact Prod.Lex.right _ (by decide)

def parseblock (s : List Char) : Except Stop (Cmd Span × Rest s) :=
  if found : peek s ['('] then do
    let line ← parseline (afterToken s).1
    if peek line.2.1 [')'] then
      let out ← parseredirs line.1 (afterToken line.2.1).1
      .ok (out.1, (afterToken s).further (line.2.further ((afterToken line.2.1).further out.2)))
    else .error (.panic "syntax - missing )")
  else .error (.panic "parseblock")
termination_by (s.length, 0)
decreasing_by exact Prod.Lex.left _ _ (gettoken_lt_of_peek found)

end

namespace Cmd

variable {α β : Type}

def map (f : α → β) : Cmd α → Cmd β
  | exec argv => exec (argv.map f)
  | redir cmd file mode fd => redir (cmd.map f) (f file) mode fd
  | pipe left right => pipe (left.map f) (right.map f)
  | list left right => list (left.map f) (right.map f)
  | back cmd => back (cmd.map f)

end Cmd

/-- `nulterminate` on a line of `len` characters. -/
def nulterminate (len : Nat) : Cmd Span → (Nat → Char) → Nat → Char
  | .exec argv, buf => argv.foldl (fun buf arg => Function.update buf (len - arg.eq.length) '\x00') buf
  | .redir cmd file _ _, buf => Function.update (nulterminate len cmd buf) (len - file.eq.length) '\x00'
  | .pipe left right, buf => nulterminate len right (nulterminate len left buf)
  | .list left right, buf => nulterminate len right (nulterminate len left buf)
  | .back cmd, buf => nulterminate len cmd buf

/-- The string that a word is when the line of `len` characters has become `buf`. -/
def cString (len : Nat) (buf : Nat → Char) (word : Span) : List Char :=
  ((List.range word.q.length).map fun i => buf (len - word.q.length + i)).takeWhile (· ≠ '\x00')

/-- `parsecmd`, with the strings that the words of the command are. -/
def parsecmd (s : List Char) : Except Stop (Cmd (List Char)) := do
  let line ← parseline s
  if skipBlanks line.2.1 ≠ [] then .error (.panic "syntax")
  else .ok (line.1.map (cString s.length (nulterminate s.length line.1 fun i => s.getD i '\x00')))

end MiniOS
