import MiniOS.Shell.Sound

namespace MiniOS

open Lib

variable {tok : Token} {args : List Arg} {rs : List Redir}

/-- The tokens that may follow what a symbol of the grammar stands for. -/
def Follow (stops : Token → Prop) (ts : List Token) : Prop := ts = [] ∨ ∃ tok us, ts = tok :: us ∧ stops tok

variable {s : List Char} {more : List Token} {stops : Token → Prop}

theorem Follow.head_ne (follow : Follow stops more) (other : ¬stops tok) (us : List Token) : more ≠ tok :: us := by
  rcases follow with rfl | ⟨tok', us', rfl, stop⟩
  · exact nofun
  · intro same
    cases same
    exact other stop

theorem Token.Ends.not_redir (op : RedirOp) : ¬op.token.Ends := by
  cases op <;> simp [RedirOp.token, Token.Ends]

theorem Follow.noRedir (follow : Follow Token.Ends more) : NoRedir more :=
  fun op us => follow.head_ne (Token.Ends.not_redir op) us

theorem Follow.amps {n : Nat} (follow : Follow stops more) (amp : stops .amp) :
    Follow stops (List.replicate n .amp ++ more) := by
  cases n with
  | zero => exact follow
  | succ n => exact .inr ⟨_, _, rfl, amp⟩

theorem Follow.cons (stop : stops tok) (us : List Token) : Follow stops (tok :: us) := .inr ⟨tok, us, rfl, stop⟩

theorem Follow.mono {stops' : Token → Prop} (follow : Follow stops more) (weaker : ∀ tok, stops tok → stops' tok) :
    Follow stops' more := follow.imp_right fun ⟨tok, us, same, stop⟩ => ⟨tok, us, same, weaker tok stop⟩

theorem noRedir_args (follow : Follow Token.Ends more) : NoRedir (args.flatMap Arg.tokens ++ more) := by
  cases args with
  | nil => exact follow.noRedir
  | cons arg args =>
    intro op us same
    have first := (List.cons.inj same).1
    cases op <;> cases first

theorem not_opens (follow : Follow Token.Ends more) (us : List Token) :
    rs.flatMap Redir.tokens ++ (args.flatMap Arg.tokens ++ more) ≠ .opens :: us := by
  cases rs with
  | cons r rs =>
    intro same
    have first : r.op.token = .opens := (List.cons.inj same).1
    cases op : r.op <;> rw [op] at first <;> cases first
  | nil =>
    cases args with
    | cons arg args => exact fun same => nomatch (List.cons.inj same).1
    | nil => exact follow.head_ne (by simp [Token.Ends]) us

theorem parseargs_ok (before : List Arg) {ret : Cmd Span}
    (lexed : lex s = args.flatMap Arg.tokens ++ more) (follow : Follow Token.Ends more)
    (few : (before ++ args).length ≤ 9) (tree : ret.map Span.text = simple rs before) :
    ∃ out, parseargs before.length ret s = .ok out ∧ lex out.2.1 = more ∧
      out.1.map Span.text = simple rs (before ++ args) := by
  induction args generalizing s before ret with
  | nil =>
    rw [List.append_nil]
    rcases follow with rfl | ⟨tok, us, rfl, ends⟩
    · obtain ⟨call, rest⟩ := parseargs_end before.length ret lexed
      exact ⟨_, call, rest, tree⟩
    · exact ⟨_, parseargs_stop _ _ lexed ends, (lex_afterPeek s).trans lexed, tree⟩
  | cons arg args ih =>
    rw [List.flatMap_cons, Arg.tokens, List.cons_append, List.cons_append, List.append_assoc] at lexed
    obtain ⟨span, marks, after, step⟩ := parseargs_word before.length ret lexed
    obtain ⟨redirs, call, rest, tree', _⟩ := parseredirs_ok after (noRedir_args follow) (ret.addArg span)
    rw [Cmd.map_addArg, marks.text_eq, tree] at tree'
    have few' : ((before ++ [arg]) ++ args).length ≤ 9 := by rwa [List.append_assoc]
    obtain ⟨out, call', rest', tree''⟩ := ih _ rest few' (tree'.trans (simple_concat rs before arg))
    have room : ¬before.length + 1 ≥ maxargs := by
      rw [List.length_append, List.length_cons] at few
      rw [maxargs]
      omega
    rw [List.length_append, List.length_singleton] at call'
    rw [step, if_neg room, call, ok_bind, call', ok_bind]
    rw [List.append_assoc] at tree''
    exact ⟨_, rfl, rest', tree''⟩

/-- The tokens that end a pipe, and those that end a line. -/
def Token.EndsPipe (tok : Token) : Prop := tok = .closes ∨ tok = .amp ∨ tok = .semi

def Token.EndsLine (tok : Token) : Prop := tok = .closes

def NonTerm.parse : NonTerm → (s : List Char) → Except Stop (Cmd Span × Rest s)
  | line, s => parseline s
  | pipe, s => parsepipe s
  | exec, s => parseexec s

def NonTerm.ends : NonTerm → Token → Prop
  | line => Token.EndsLine
  | pipe => Token.EndsPipe
  | exec => Token.Ends

theorem parse_complete {kind : NonTerm} {ts : List Token} {t : Cmd (List Char)} (derives : Derives kind ts t)
    (lexed : lex s = ts ++ more) (follow : Follow kind.ends more) :
    ∃ out, kind.parse s = .ok out ∧ lex out.2.1 = more ∧ out.1.map Span.text = t := by
  induction derives generalizing s more with
  | line n derives ih =>
    rw [List.append_assoc] at lexed
    have semis : ∀ us, more ≠ .semi :: us := follow.head_ne (by simp [NonTerm.ends, Token.EndsLine])
    have amps : ∀ us, more ≠ .amp :: us := follow.head_ne (by simp [NonTerm.ends, Token.EndsLine])
    have follow : Follow Token.EndsPipe more := follow.mono fun _ => .inl
    obtain ⟨first, call, rest, tree⟩ := ih lexed (follow.amps (.inr (.inl rfl)))
    have call : parsepipe s = .ok first := call
    obtain ⟨rest', backs⟩ := parsebacks_eq rest amps first.1
    have notFound : ¬peek (parsebacks first.1 first.2.1).2.1 [';'] = true := by
      intro found
      obtain ⟨us, semi⟩ := peek_semi.1 found
      exact semis us (rest'.symm.trans semi)
    refine ⟨((parsebacks first.1 first.2.1).1, first.2.further
      ((parsebacks first.1 first.2.1).2.further (afterPeek _))),
      ?_, (lex_afterPeek _).trans rest', ?_⟩
    · rw [NonTerm.parse, parseline, call, ok_bind]
      dsimp only
      rw [dif_neg notFound]
    · rw [backs, map_backs, tree]
  | list n derives derives' ih ih' =>
    rw [List.append_assoc, List.append_assoc, List.cons_append] at lexed
    obtain ⟨first, call, rest, tree⟩ := ih lexed (Follow.amps (.inr ⟨_, _, rfl, .inr (.inr rfl)⟩) (.inr (.inl rfl)))
    have call : parsepipe s = .ok first := call
    obtain ⟨rest', backs⟩ := parsebacks_eq rest (by simp) first.1
    obtain ⟨_, after, _⟩ := afterToken_cons rest'
    obtain ⟨right, call', rest'', tree'⟩ := ih' after follow
    have call' : parseline (afterToken (parsebacks first.1 first.2.1).2.1).1 = .ok right := call'
    refine ⟨(.list (parsebacks first.1 first.2.1).1 right.1,
      first.2.further ((parsebacks first.1 first.2.1).2.further ((afterToken _).further right.2))), ?_, rest'', ?_⟩
    · rw [NonTerm.parse, parseline, call, ok_bind]
      dsimp only
      rw [dif_pos (peek_semi.2 ⟨_, rest'⟩), call', ok_bind]
    · rw [Cmd.map, backs, map_backs, tree, tree']
  | single derives ih =>
    obtain ⟨first, call, rest, tree⟩ := ih lexed (follow.mono fun tok ends => .inr ends)
    have call : parseexec s = .ok first := call
    have notFound : ¬peek first.2.1 ['|'] = true := by
      intro found
      obtain ⟨us, bar⟩ := peek_bar.1 found
      exact follow.head_ne (by simp [NonTerm.ends, Token.EndsPipe]) us (rest.symm.trans bar)
    refine ⟨(first.1, first.2.further (afterPeek first.2.1)), ?_, (lex_afterPeek _).trans rest, tree⟩
    rw [NonTerm.parse, parsepipe, call, ok_bind, dif_neg notFound]
  | pipe derives derives' ih ih' =>
    rw [List.append_assoc, List.cons_append] at lexed
    obtain ⟨first, call, rest, tree⟩ := ih lexed (.cons (.inl rfl) _)
    have call : parseexec s = .ok first := call
    obtain ⟨_, after, _⟩ := afterToken_cons rest
    obtain ⟨right, call', rest', tree'⟩ := ih' after follow
    have call' : parsepipe (afterToken first.2.1).1 = .ok right := call'
    refine ⟨(.pipe first.1 right.1, first.2.further ((afterToken first.2.1).further right.2)), ?_, rest', ?_⟩
    · rw [NonTerm.parse, parsepipe, call, ok_bind, dif_pos (peek_bar.2 ⟨_, rest⟩), call', ok_bind]
    · rw [Cmd.map, tree, tree']
  | block rs derives ih =>
    rw [List.append_assoc, List.cons_append, List.cons_append] at lexed
    obtain ⟨_, after, _⟩ := afterToken_cons lexed
    obtain ⟨first, call, rest, tree⟩ := ih after (.inr ⟨_, _, rfl, rfl⟩)
    have call : parseline (afterToken s).1 = .ok first := call
    obtain ⟨_, after', _⟩ := afterToken_cons rest
    obtain ⟨out, call', rest', tree', _⟩ := parseredirs_ok after' (Follow.noRedir follow) first.1
    have opened := peek_opens.2 ⟨_, lexed⟩
    refine ⟨(out.1, (afterToken s).further (first.2.further ((afterToken first.2.1).further out.2))), ?_, rest', ?_⟩
    · rw [NonTerm.parse, parseexec, if_pos opened, parseblock, dif_pos opened, call, ok_bind,
        if_pos (peek_closes.2 ⟨_, rest⟩), call', ok_bind]
    · rw [tree', tree]
  | words rs args few =>
    rw [List.append_assoc] at lexed
    obtain ⟨redirs, call, rest, tree, _⟩ := parseredirs_ok lexed (noRedir_args follow) (.exec [])
    obtain ⟨out, call', rest', tree'⟩ := parseargs_ok [] rest follow few (tree.trans (simple_nil rs).symm)
    have notFound : ¬peek s ['('] = true := by
      intro found
      obtain ⟨us, opens⟩ := peek_opens.1 found
      exact not_opens follow us (lexed.symm.trans opens)
    refine ⟨(out.1, redirs.2.further out.2), ?_, rest', tree'⟩
    rw [List.length_nil] at call'
    rw [NonTerm.parse, parseexec, if_neg notFound, call, ok_bind, call', ok_bind]

end MiniOS
