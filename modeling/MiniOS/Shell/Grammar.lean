import MiniOS.Shell.Tokens
import Mathlib.Logic.Function.Iterate

namespace MiniOS

inductive RedirOp
  | less
  | more
  | moreMore

def RedirOp.token : RedirOp → Token
  | less => .less
  | more => .more
  | moreMore => .moreMore

/-- A redirection node. -/
def RedirOp.node {α : Type} (op : RedirOp) (cmd : Cmd α) (file : α) : Cmd α :=
  match op with
  | less => .redir cmd file oRdonly 0
  | more | moreMore => .redir cmd file oWronlyCreate 1

/-- `redir = ('<' | '>' | '>>') word`. -/
structure Redir where
  op : RedirOp
  file : List Char

def Redir.tokens (r : Redir) : List Token := [r.op.token, .word r.file]

/-- The redirections are wrapped around a command in their order. -/
def wrap (cmd : Cmd (List Char)) (rs : List Redir) : Cmd (List Char) :=
  rs.foldl (fun cmd r => r.op.node cmd r.file) cmd

/-- `word redir*`. -/
structure Arg where
  word : List Char
  redirs : List Redir

def Arg.tokens (arg : Arg) : List Token := .word arg.word :: arg.redirs.flatMap Redir.tokens

/-- The command of `redir* (word redir*)*`. -/
def simple (rs : List Redir) (args : List Arg) : Cmd (List Char) :=
  wrap (.exec (args.map Arg.word)) (rs ++ args.flatMap Arg.redirs)

inductive NonTerm
  | line
  | pipe
  | exec

/-- The grammar of the shell. A line is `pipe '&'* [';' line]`, a pipe is `exec ['|' pipe]`, and
a command is `'(' line ')' redir*` or `redir* (word redir*)*` with at most nine words. -/
inductive Derives : NonTerm → List Token → Cmd (List Char) → Prop
  | line {ts : List Token} {t : Cmd (List Char)} (n : Nat) : Derives .pipe ts t →
      Derives .line (ts ++ List.replicate n .amp) (Nat.iterate Cmd.back n t)
  | list {ts us : List Token} {t u : Cmd (List Char)} (n : Nat) : Derives .pipe ts t → Derives .line us u →
      Derives .line (ts ++ List.replicate n .amp ++ .semi :: us) (.list (Nat.iterate Cmd.back n t) u)
  | single {ts : List Token} {t : Cmd (List Char)} : Derives .exec ts t → Derives .pipe ts t
  | pipe {ts us : List Token} {t u : Cmd (List Char)} : Derives .exec ts t → Derives .pipe us u →
      Derives .pipe (ts ++ .bar :: us) (.pipe t u)
  | block {ts : List Token} {t : Cmd (List Char)} (rs : List Redir) : Derives .line ts t →
      Derives .exec (.opens :: ts ++ .closes :: rs.flatMap Redir.tokens) (wrap t rs)
  | words (rs : List Redir) (args : List Arg) : args.length ≤ 9 →
      Derives .exec (rs.flatMap Redir.tokens ++ args.flatMap Arg.tokens) (simple rs args)

namespace Cmd

variable {α β : Type} (f : α → β)

/-- The words of a command. -/
def leaves : Cmd α → List α
  | exec argv => argv
  | redir cmd file _ _ => cmd.leaves ++ [file]
  | pipe left right | list left right => left.leaves ++ right.leaves
  | back cmd => cmd.leaves

theorem map_node (op : RedirOp) (cmd : Cmd α) (file : α) :
    (op.node cmd file).map f = op.node (cmd.map f) (f file) := by
  cases op <;> rfl

theorem leaves_node (op : RedirOp) (cmd : Cmd α) (file : α) : (op.node cmd file).leaves = cmd.leaves ++ [file] := by
  cases op <;> rfl

theorem map_addArg (arg : α) (cmd : Cmd α) : (cmd.addArg arg).map f = (cmd.map f).addArg (f arg) := by
  induction cmd with
  | exec argv => simp [addArg, map]
  | redir cmd file mode fd ih => simp [addArg, map, ih]
  | pipe | list | back => rfl

theorem mem_leaves_addArg {arg x : α} {cmd : Cmd α} (member : x ∈ (cmd.addArg arg).leaves) :
    x ∈ cmd.leaves ∨ x = arg := by
  induction cmd with
  | exec argv => simpa [addArg, leaves] using member
  | redir cmd file mode fd ih =>
    rcases List.mem_append.1 member with inner | last
    · exact (ih inner).imp_left fun old => List.mem_append_left _ old
    · exact .inl (List.mem_append_right _ last)
  | pipe | list | back => exact .inl member

theorem map_congr {f g : α → β} {cmd : Cmd α} (same : ∀ x ∈ cmd.leaves, f x = g x) : cmd.map f = cmd.map g := by
  induction cmd with
  | exec argv => exact congrArg exec (List.map_congr_left same)
  | redir cmd file mode fd ih =>
    rw [map, map, ih fun x member => same x (List.mem_append_left _ member),
      same file (List.mem_append_right _ (List.mem_singleton_self file))]
  | pipe _ _ ih ih' | list _ _ ih ih' =>
    rw [map, map, ih fun x member => same x (List.mem_append_left _ member),
      ih' fun x member => same x (List.mem_append_right _ member)]
  | back cmd ih => rw [map, map, ih same]

theorem addArg_wrap (cmd : Cmd (List Char)) (rs : List Redir) (arg : List Char) :
    (wrap cmd rs).addArg arg = wrap (cmd.addArg arg) rs := by
  induction rs generalizing cmd with
  | nil => rfl
  | cons r rs ih =>
    have node : (r.op.node cmd r.file).addArg arg = r.op.node (cmd.addArg arg) r.file := by
      cases r.op <;> rfl
    exact (ih _).trans (congrArg (wrap · rs) node)

/-- What does not depend on a node for the background is not changed by some of them. -/
theorem iterate_back {γ : Type} (g : Cmd α → γ) (same : ∀ cmd, g (back cmd) = g cmd) (n : Nat) (cmd : Cmd α) :
    g (Nat.iterate back n cmd) = g cmd := by
  induction n generalizing cmd with
  | zero => rfl
  | succ n ih => exact (ih _).trans (same cmd)

end Cmd

theorem simple_nil (rs : List Redir) : simple rs [] = wrap (.exec []) rs := by
  rw [simple, List.flatMap_nil, List.append_nil, List.map_nil]

/-- A word and the redirections after it are added to a simple command. -/
theorem simple_concat (rs : List Redir) (args : List Arg) (arg : Arg) :
    wrap ((simple rs args).addArg arg.word) arg.redirs = simple rs (args ++ [arg]) := by
  rw [simple, Cmd.addArg_wrap, simple, Cmd.addArg, wrap, wrap, wrap, ← List.foldl_append]
  simp

end MiniOS
