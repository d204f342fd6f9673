import MiniOS.Shell.Steps

namespace MiniOS

open Lib

/-- The pointers enclose a word somewhere in the line. -/
def Span.Good (s : List Char) (a : Span) : Prop := ∃ text, a.Marks s text

theorem Span.Good.mono {a : Span} {s line : List Char} (good : a.Good s) (inside : s <:+ line) : a.Good line :=
  let ⟨text, marks⟩ := good
  ⟨text, marks.mono inside⟩

/-- The next token does not start a redirection. -/
def NoRedir (ts : List Token) : Prop := ∀ (op : RedirOp) us, ts ≠ op.token :: us

section Redirs

variable {s : List Char} {more : List Token} {rs : List Redir}

theorem parseredirs_ok (lexed : lex s = rs.flatMap Redir.tokens ++ more) (stop : NoRedir more)
    (cmd : Cmd Span) : ∃ out, parseredirs cmd s = .ok out ∧ lex out.2.1 = more ∧
      out.1.map Span.text = wrap (cmd.map Span.text) rs ∧ ∀ a ∈ out.1.leaves, a ∈ cmd.leaves ∨ a.Good s := by
  induction rs generalizing s cmd with
  | nil =>
    have none : NoRedir (lex s) := lexed ▸ stop
    exact ⟨_, parseredirs_stop cmd none, (lex_afterPeek s).trans lexed, rfl, fun a => .inl⟩
  | cons r rs ih =>
    obtain ⟨file, rest, marks, after, _, next⟩ := parseredirs_next cmd lexed
    obtain ⟨out, call, lexed', tree, leaves⟩ := ih after (r.op.node cmd file)
    rw [next, call]
    refine ⟨_, rfl, lexed', ?_, fun a member => ?_⟩
    · rw [Cmd.map_node, marks.text_eq] at tree
      exact tree
    · rcases leaves a member with old | new
      · rw [Cmd.leaves_node] at old
        rcases List.mem_append.1 old with before | here
        · exact .inl before
        · exact .inr (List.mem_singleton.1 here ▸ ⟨_, marks⟩)
      · exact .inr (new.mono rest.2)

theorem parseredirs_error {op : RedirOp} (lexed : lex s = rs.flatMap Redir.tokens ++ op.token :: more)
    (bad : ∀ text us, more ≠ .word text :: us) (cmd : Cmd Span) :
    parseredirs cmd s = .error (.panic "missing file for redirection") := by
  induction rs generalizing s cmd with
  | nil => exact parseredirs_missing cmd lexed bad
  | cons r rs ih =>
    obtain ⟨file, rest, _, after, _, next⟩ := parseredirs_next cmd lexed
    rw [next, ih after]
    rfl

theorem exists_redirs (ts : List Token) :
    ∃ (rs : List Redir) (more : List Token), ts = rs.flatMap Redir.tokens ++ more ∧
    (NoRedir more ∨ ∃ (op : RedirOp) (us : List Token), more = op.token :: us ∧
      ∀ text vs, us ≠ .word text :: vs) := by
  induction length : ts.length using Nat.strong_induction_on generalizing ts with
  | _ n ih =>
  subst length
  by_cases found : ∃ (op : RedirOp) (us : List Token), ts = op.token :: us
  · obtain ⟨op, us, rfl⟩ := found
    by_cases good : ∃ text vs, us = .word text :: vs
    · obtain ⟨text, vs, rfl⟩ := good
      obtain ⟨rs, more, rfl, stop⟩ := ih vs.length (by simp only [List.length_cons]; omega) vs rfl
      exact ⟨⟨op, text⟩ :: rs, more, rfl, stop⟩
    · exact ⟨[], _, rfl, .inr ⟨op, us, rfl, fun text vs same => good ⟨text, vs, same⟩⟩⟩
  · exact ⟨[], ts, rfl, .inl fun op us same => found ⟨op, us, same⟩⟩

end Redirs

/-- The panics for a line that is not in the grammar. -/
def SyntaxPanic (e : Stop) : Prop :=
  e = .panic "syntax" ∨ e = .panic "missing file for redirection" ∨ e = .panic "syntax - missing )" ∨
  e = .panic "too many args"

variable {line s s' : List Char} {derives derives' : List Token → Cmd (List Char) → Prop} {cmd ret : Cmd Span}

/-- The parser has read some tokens from `s` on, and the words of the command are marked in the line. -/
structure Parsed (line : List Char) (derives : List Token → Cmd (List Char) → Prop) (out : Cmd Span × Rest s) :
    Prop where
  tokens : ∃ ts, lex s = ts ++ lex out.2.1 ∧ derives ts (out.1.map Span.text)
  good : ∀ a ∈ out.1.leaves, a.Good line

/-- What the parser does is right, whether it succeeds or not. -/
def Outcome (line : List Char) (derives : List Token → Cmd (List Char) → Prop) :
    Except Stop (Cmd Span × Rest s) → Prop
  | .ok out => Parsed line derives out
  | .error e => SyntaxPanic e

theorem Outcome.bind {result : Except Stop (Cmd Span × Rest s)}
    {next : Cmd Span × Rest s → Except Stop (Cmd Span × Rest s')} (sound : Outcome line derives result)
    (goes : ∀ out, Parsed line derives out → Outcome line derives' (next out)) :
    Outcome line derives' (result >>= next) := by
  cases result with
  | error e => exact sound
  | ok out => exact goes out sound

theorem parseredirs_sound (inside : s <:+ line) (good : ∀ a ∈ cmd.leaves, a.Good line) :
    Outcome line (fun ts t => ∃ rs : List Redir, ts = rs.flatMap Redir.tokens ∧ t = wrap (cmd.map Span.text) rs)
      (parseredirs cmd s) := by
  obtain ⟨rs, more, lexed, stop | ⟨op, us, rfl, bad⟩⟩ := exists_redirs (lex s)
  · obtain ⟨out, call, rest, tree, leaves⟩ := parseredirs_ok lexed stop cmd
    rw [call]
    exact ⟨⟨_, rest ▸ lexed, rs, rfl, tree⟩, fun a member => (leaves a member).elim (good a) fun new =>
      new.mono inside⟩
  · rw [parseredirs_error lexed bad]
    exact .inr (.inl rfl)

theorem parseargs_sound {rs : List Redir} {before : List Arg} (inside : s <:+ line) (few : before.length ≤ 9)
    (good : ∀ a ∈ ret.leaves, a.Good line) (tree : ret.map Span.text = simple rs before) :
    Outcome line (fun ts t => ∃ args : List Arg, (before ++ args).length ≤ 9 ∧ ts = args.flatMap Arg.tokens ∧
      t = simple rs (before ++ args)) (parseargs before.length ret s) := by
  induction length : s.length using Nat.strong_induction_on generalizing s ret before with
  | _ n ih =>
  subst length
  have done {rest : Rest s} (same : lex rest.1 = lex s) : Outcome line (fun ts t => ∃ args : List Arg,
      (before ++ args).length ≤ 9 ∧ ts = args.flatMap Arg.tokens ∧ t = simple rs (before ++ args))
        (.ok (ret, rest)) := by
    refine ⟨⟨[], same.symm, [], ?_, rfl, ?_⟩, good⟩
    · rwa [List.append_nil]
    · rwa [List.append_nil]
  cases lexed : lex s with
  | nil =>
    obtain ⟨call, rest⟩ := parseargs_end before.length ret lexed
    rw [call]
    exact done (rest.trans lexed.symm)
  | cons tok ts =>
    by_cases ends : tok.Ends
    · rw [parseargs_stop _ _ lexed ends]
      exact done (lex_afterPeek s)
    by_cases word : ∃ text, tok = .word text
    · obtain ⟨text, rfl⟩ := word
      obtain ⟨arg, marks, rfl, step⟩ := parseargs_word before.length ret lexed
      rw [step]
      split
      · exact .inr (.inr (.inr rfl))
      rename_i less
      have added (a : Span) (member : a ∈ (ret.addArg arg).leaves) : a.Good line := by
        rcases Cmd.mem_leaves_addArg member with old | rfl
        · exact good a old
        · exact ⟨text, marks.mono inside⟩
      refine (parseredirs_sound ((afterToken s).2.trans inside) added).bind fun redirs parsed => ?_
      obtain ⟨⟨_, after, rs', rfl, wrapped⟩, good'⟩ := parsed
      rw [Cmd.map_addArg, marks.text_eq, tree] at wrapped
      have tree' := wrapped.trans (simple_concat rs before ⟨text, rs'⟩)
      have count : (before ++ [(⟨text, rs'⟩ : Arg)]).length = before.length + 1 := List.length_append
      have rest := ih redirs.2.1.length (Nat.lt_of_le_of_lt redirs.2.length_le (afterToken_lt lexed))
        (s := redirs.2.1)
        ((redirs.2.2.trans (afterToken s).2).trans inside) (by rw [maxargs] at less; omega) good' tree' rfl
      rw [count] at rest
      refine rest.bind fun out parsed => ?_
      obtain ⟨⟨_, last, args, few', rfl, final⟩, good''⟩ := parsed
      rw [List.append_assoc] at few' final
      refine ⟨⟨_, ?_, ⟨text, rs'⟩ :: args, few', rfl, final⟩, good''⟩
      rw [lexed, after, last, List.flatMap_cons, Arg.tokens, List.cons_append, List.cons_append, List.append_assoc]
      rfl
    · rw [parseargs_other _ _ lexed ends fun text same => word ⟨text, same⟩]
      exact .inl rfl

theorem exists_amps (ts : List Token) : ∃ n more, ts = List.replicate n .amp ++ more ∧
    ∀ us, more ≠ Token.amp :: us := by
  induction ts with
  | nil => exact ⟨0, [], rfl, nofun⟩
  | cons tok ts ih =>
    by_cases amp : tok = .amp
    · obtain ⟨n, more, rfl, stop⟩ := ih
      exact ⟨n + 1, more, amp ▸ rfl, stop⟩
    · exact ⟨0, tok :: ts, rfl, fun us same => amp (List.cons.inj same).1⟩

theorem map_backs (n : Nat) (cmd : Cmd Span) :
    (Nat.iterate Cmd.back n cmd).map Span.text = Nat.iterate Cmd.back n (cmd.map Span.text) := by
  induction n generalizing cmd with
  | zero => rfl
  | succ n ih => exact ih (.back cmd)

theorem leaves_backs (n : Nat) (cmd : Cmd Span) : (Nat.iterate Cmd.back n cmd).leaves = cmd.leaves :=
  Cmd.iterate_back Cmd.leaves (fun _ => rfl) n cmd

/-- The four functions of the parser that call each other. -/
structure ParsesSoundly (line s : List Char) : Prop where
  parseline : Outcome line (Derives .line) (parseline s)
  parsepipe : Outcome line (Derives .pipe) (parsepipe s)
  parseexec : Outcome line (Derives .exec) (parseexec s)

theorem parseexec_sound (inside : s <:+ line) (shorter : ∀ s', s' <:+ line → s'.length < s.length →
    ParsesSoundly line s') :
    Outcome line (Derives .exec) (parseexec s) := by
  rw [parseexec]
  split
  · rename_i found
    obtain ⟨ts, lexed⟩ := peek_opens.1 found
    obtain ⟨_, rfl, _⟩ := afterToken_cons lexed
    rw [parseblock, dif_pos found]
    refine (shorter _ ((afterToken s).2.trans inside) (afterToken_lt lexed)).parseline.bind fun first parsed => ?_
    obtain ⟨⟨ts, after, derives⟩, good⟩ := parsed
    split
    · rename_i closed
      obtain ⟨us, lexed'⟩ := peek_closes.1 closed
      obtain ⟨_, rfl, _⟩ := afterToken_cons lexed'
      have inside' := ((afterToken first.2.1).2.trans (first.2.2.trans (afterToken s).2)).trans inside
      refine (parseredirs_sound inside' good).bind fun out parsed => ?_
      obtain ⟨⟨_, last, rs, rfl, tree⟩, good'⟩ := parsed
      have derived := Derives.block rs derives
      rw [← tree] at derived
      refine ⟨⟨_, ?_, derived⟩, good'⟩
      rw [lexed, after, lexed', last]
      simp [Rest.further]
    · exact .inr (.inr (.inl rfl))
  · have none : ∀ a ∈ (Cmd.exec [] : Cmd Span).leaves, a.Good line := nofun
    refine (parseredirs_sound inside none).bind fun redirs parsed => ?_
    obtain ⟨⟨_, after, rs, rfl, tree⟩, good⟩ := parsed
    have start : redirs.1.map Span.text = simple rs [] := tree.trans (simple_nil rs).symm
    have few : ([] : List Arg).length ≤ 9 := Nat.zero_le 9
    refine (parseargs_sound (redirs.2.2.trans inside) few good start).bind fun out parsed => ?_
    obtain ⟨⟨_, last, args, few, rfl, tree'⟩, good'⟩ := parsed
    have derived := Derives.words rs args few
    rw [← List.nil_append args, ← tree'] at derived
    refine ⟨⟨_, ?_, derived⟩, good'⟩
    rw [after, last]
    simp [Rest.further]

theorem parsepipe_sound (inside : s <:+ line) (shorter : ∀ s', s' <:+ line → s'.length < s.length →
    ParsesSoundly line s') :
    Outcome line (Derives .pipe) (parsepipe s) := by
  rw [parsepipe]
  refine (parseexec_sound inside shorter).bind fun first parsed => ?_
  obtain ⟨⟨ts, after, derives⟩, good⟩ := parsed
  split
  · rename_i found
    obtain ⟨us, lexed⟩ := peek_bar.1 found
    obtain ⟨_, rfl, _⟩ := afterToken_cons lexed
    have less := Nat.lt_of_lt_of_le (afterToken_lt lexed) first.2.length_le
    refine (shorter _ (((afterToken first.2.1).2.trans first.2.2).trans inside) less).parsepipe.bind
      fun right parsed => ?_
    obtain ⟨⟨us, last, derives'⟩, good'⟩ := parsed
    refine ⟨⟨_, ?_, .pipe derives derives'⟩, fun a member => (List.mem_append.1 member).elim (good a) (good' a)⟩
    rw [after, lexed, last]
    simp [Rest.further]
  · refine ⟨⟨ts, ?_, .single derives⟩, good⟩
    rw [after]
    exact congrArg (ts ++ ·) (lex_afterPeek first.2.1).symm

theorem parseline_sound (inside : s <:+ line) (shorter : ∀ s', s' <:+ line → s'.length < s.length →
    ParsesSoundly line s') :
    Outcome line (Derives .line) (parseline s) := by
  rw [parseline]
  refine (parsepipe_sound inside shorter).bind fun first parsed => ?_
  obtain ⟨⟨ts, after, derives⟩, good⟩ := parsed
  obtain ⟨n, more, amps, stop⟩ := exists_amps (lex first.2.1)
  obtain ⟨lexed, backs⟩ := parsebacks_eq amps stop first.1
  have good : ∀ a ∈ (parsebacks first.1 first.2.1).1.leaves, a.Good line := by
    rw [backs, leaves_backs]
    exact good
  dsimp only
  split
  · rename_i found
    obtain ⟨us, semi⟩ := peek_semi.1 found
    obtain ⟨_, rfl, _⟩ := afterToken_cons semi
    have less := Nat.lt_of_lt_of_le (afterToken_lt semi) (first.2.further (parsebacks first.1 first.2.1).2).length_le
    have inside' := ((afterToken (parsebacks first.1 first.2.1).2.1).2.trans
      (first.2.further (parsebacks first.1 first.2.1).2).2).trans inside
    refine (shorter _ inside' less).parseline.bind fun right parsed => ?_
    obtain ⟨⟨us, last, derives'⟩, good'⟩ := parsed
    have derived := Derives.list n derives derives'
    rw [← map_backs, ← backs] at derived
    refine ⟨⟨_, ?_, derived⟩, fun a member => (List.mem_append.1 member).elim (good a) (good' a)⟩
    rw [after, amps, ← lexed, semi, last]
    simp [Rest.further]
  · have derived := Derives.line n derives
    rw [← map_backs, ← backs] at derived
    refine ⟨⟨_, ?_, derived⟩, good⟩
    rw [after, amps, ← lexed]
    simp [Rest.further, lex_afterPeek]

theorem parses_soundly (inside : s <:+ line) : ParsesSoundly line s := by
  induction length : s.length using Nat.strong_induction_on generalizing s with
  | _ n ih =>
  subst length
  have shorter (s' : List Char) (inside' : s' <:+ line) (less : s'.length < s.length) : ParsesSoundly line s' :=
    ih _ less inside' rfl
  exact ⟨parseline_sound inside shorter, parsepipe_sound inside shorter, parseexec_sound inside shorter⟩

end MiniOS
