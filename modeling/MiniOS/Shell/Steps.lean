import MiniOS.Shell.Grammar
import MiniOS.Lib.Outcome

namespace MiniOS

open Lib

section Peek

variable {s : List Char} {tok : Token} {ts : List Token}

theorem peek_iff {toks : List Char} (known : ∀ c ∈ toks, c ∈ symbols) :
    peek s toks = true ↔ ∃ tok ts, lex s = tok :: ts ∧ ∃ c ∈ toks, tok.first = some c := by
  rw [peek_eq known]
  cases lex s with
  | nil => simp
  | cons tok ts =>
    cases first : tok.first with
    | none => simp [first]
    | some c => simp [first]

/-- `peek` for a character that is a token of its own. -/
theorem peek_symbol (tok : Token) {c : Char} (first : tok.first = some c) (known : c ∈ symbols)
    (only : ∀ t : Token, t.first = some c → t = tok) : peek s [c] = true ↔ ∃ ts, lex s = tok :: ts := by
  rw [peek_iff (by simpa using known)]
  refine ⟨?_, fun ⟨ts, lexed⟩ => ⟨tok, ts, lexed, c, List.mem_singleton_self c, first⟩⟩
  rintro ⟨t, ts, lexed, d, member, same⟩
  rw [List.mem_singleton.1 member] at same
  exact ⟨ts, only t same ▸ lexed⟩

theorem peek_amp : peek s ['&'] = true ↔ ∃ ts, lex s = .amp :: ts :=
  peek_symbol .amp rfl (by decide) fun t first => by cases t <;> cases first; rfl

theorem peek_semi : peek s [';'] = true ↔ ∃ ts, lex s = .semi :: ts :=
  peek_symbol .semi rfl (by decide) fun t first => by cases t <;> cases first; rfl

theorem peek_bar : peek s ['|'] = true ↔ ∃ ts, lex s = .bar :: ts :=
  peek_symbol .bar rfl (by decide) fun t first => by cases t <;> cases first; rfl

theorem peek_opens : peek s ['('] = true ↔ ∃ ts, lex s = .opens :: ts :=
  peek_symbol .opens rfl (by decide) fun t first => by cases t <;> cases first; rfl

theorem peek_closes : peek s [')'] = true ↔ ∃ ts, lex s = .closes :: ts :=
  peek_symbol .closes rfl (by decide) fun t first => by cases t <;> cases first; rfl

theorem peek_redirs : peek s ['<', '>'] = true ↔ ∃ (op : RedirOp) (ts : List Token), lex s = op.token :: ts := by
  rw [peek_iff (by simp [symbols])]
  refine ⟨?_, ?_⟩
  · rintro ⟨tok, ts, lexed, c, member, first⟩
    cases tok with
    | less => exact ⟨.less, ts, lexed⟩
    | more => exact ⟨.more, ts, lexed⟩
    | moreMore => exact ⟨.moreMore, ts, lexed⟩
    | word text => cases first
    | _ => cases first; exact absurd member (by decide)
  · rintro ⟨op, ts, lexed⟩
    cases op with
    | less => exact ⟨_, ts, lexed, '<', by decide, rfl⟩
    | more | moreMore => exact ⟨_, ts, lexed, '>', by decide, rfl⟩

/-- The tokens that end a simple command. -/
def Token.Ends (tok : Token) : Prop := tok = .bar ∨ tok = .closes ∨ tok = .amp ∨ tok = .semi

theorem peek_ends : peek s ['|', ')', '&', ';'] = true ↔ ∃ tok ts, lex s = tok :: ts ∧ tok.Ends := by
  rw [peek_iff (by simp [symbols])]
  refine ⟨?_, ?_⟩
  · rintro ⟨tok, ts, lexed, c, member, first⟩
    refine ⟨tok, ts, lexed, ?_⟩
    cases tok with
    | bar => exact .inl rfl
    | closes => exact .inr (.inl rfl)
    | amp => exact .inr (.inr (.inl rfl))
    | semi => exact .inr (.inr (.inr rfl))
    | word text => cases first
    | _ => cases first; exact absurd member (by decide)
  · rintro ⟨tok, ts, lexed, rfl | rfl | rfl | rfl⟩
    · exact ⟨_, ts, lexed, '|', by decide, rfl⟩
    · exact ⟨_, ts, lexed, ')', by decide, rfl⟩
    · exact ⟨_, ts, lexed, '&', by decide, rfl⟩
    · exact ⟨_, ts, lexed, ';', by decide, rfl⟩

theorem lex_afterPeek (s : List Char) : lex (afterPeek s).1 = lex s := lex_skipBlanks s

theorem afterToken_cons (lexed : lex s = tok :: ts) :
    (gettoken (skipBlanks s)).ret = tok.ret ∧ lex (afterToken s).1 = ts ∧
      ∀ text, tok = .word text → (gettoken (skipBlanks s)).span.Marks s text := by
  rw [← lex_skipBlanks] at lexed
  obtain ⟨ret, rest, marks⟩ := gettoken_cons lexed
  exact ⟨ret, rest, fun text same => (marks text same).mono (skipBlanks_suffix s)⟩

theorem afterToken_lt (lexed : lex s = tok :: ts) : (afterToken s).1.length < s.length := by
  refine Nat.lt_of_lt_of_le (gettoken_lt fun none => ?_) (skipBlanks_suffix s).length_le
  rw [← lex_skipBlanks, ← lex_skipBlanks, none, lex] at lexed
  cases lexed

theorem Token.ret_eq_word : tok.ret = 'a' ↔ ∃ text, tok = .word text := by
  cases tok <;> simp [Token.ret]

theorem Token.ret_ne_end (tok : Token) : tok.ret ≠ '\x00' := by
  cases tok <;> simp [Token.ret]

end Peek

section Redirs

variable {s : List Char} (cmd : Cmd Span) {op : RedirOp} {ts : List Token}

theorem parseredirs_stop (none : ∀ (op : RedirOp) ts, lex s ≠ op.token :: ts) :
    parseredirs cmd s = .ok (cmd, afterPeek s) := by
  rw [parseredirs, dif_neg]
  exact fun found => let ⟨op, ts, lexed⟩ := peek_redirs.1 found; none op ts lexed

theorem parseredirs_missing (lexed : lex s = op.token :: ts)
    (bad : ∀ text us, ts ≠ .word text :: us) :
    parseredirs cmd s = .error (.panic "missing file for redirection") := by
  obtain ⟨_, rest, _⟩ := afterToken_cons lexed
  rw [parseredirs, dif_pos (peek_redirs.2 ⟨op, ts, lexed⟩), if_pos]
  cases ts with
  | nil =>
    rw [(gettoken_nil rest).1]
    decide
  | cons tok us =>
    rw [(gettoken_cons rest).1]
    intro word
    obtain ⟨text, rfl⟩ := Token.ret_eq_word.1 word
    exact bad text us rfl

theorem redircmd_token (op : RedirOp) (cmd : Cmd Span) (file : Span) :
    redircmd op.token.ret cmd file = op.node cmd file := by
  cases op <;> rfl

theorem parseredirs_next {text : List Char} (lexed : lex s = op.token :: .word text :: ts) :
    ∃ (file : Span) (rest : Rest s), file.Marks s text ∧ lex rest.1 = ts ∧ rest.1.length < s.length ∧
      parseredirs cmd s = (do
        let out ← parseredirs (op.node cmd file) rest.1
        .ok (out.1, rest.further out.2)) := by
  obtain ⟨ret, next, _⟩ := afterToken_cons lexed
  obtain ⟨ret', rest, marks⟩ := gettoken_cons next
  have word : (gettoken (afterToken s).1).ret = 'a' := ret'
  refine ⟨(gettoken (afterToken s).1).span, (afterToken s).further ⟨_, gettoken_suffix _⟩,
    (marks text rfl).mono (afterToken s).2, rest, ?_, ?_⟩
  · exact Nat.lt_of_le_of_lt (gettoken_suffix _).length_le (afterToken_lt lexed)
  · rw [parseredirs, dif_pos (peek_redirs.2 ⟨op, _, lexed⟩), if_neg (not_not.2 word), ret]
    dsimp only
    rw [redircmd_token]
    rfl

end Redirs

section Args

variable {s : List Char} (argc : Nat) (ret : Cmd Span) {tok : Token} {ts : List Token}

theorem parseargs_end (none : lex s = []) : parseargs argc ret s = .ok (ret, afterToken s) ∧
    lex (afterToken s).1 = [] := by
  have notFound : ¬peek s ['|', ')', '&', ';'] = true := by
    rw [peek_ends, none]
    rintro ⟨tok, ts, lexed, _⟩
    cases lexed
  rw [← lex_skipBlanks] at none
  obtain ⟨stop, rest⟩ := gettoken_nil none
  rw [parseargs, if_neg notFound, dif_pos stop]
  exact ⟨rfl, rest⟩

theorem parseargs_stop (lexed : lex s = tok :: ts) (ends : tok.Ends) :
    parseargs argc ret s = .ok (ret, afterPeek s) := by
  rw [parseargs, if_pos (peek_ends.2 ⟨tok, ts, lexed, ends⟩)]

theorem not_peek_ends (lexed : lex s = tok :: ts) (other : ¬tok.Ends) :
    ¬peek s ['|', ')', '&', ';'] = true := by
  rw [peek_ends, lexed]
  rintro ⟨tok', ts', same, ends⟩
  cases same
  exact other ends

theorem parseargs_other (lexed : lex s = tok :: ts) (other : ¬tok.Ends)
    (notWord : ∀ text, tok ≠ .word text) : parseargs argc ret s = .error (.panic "syntax") := by
  have token := (afterToken_cons lexed).1
  rw [parseargs, if_neg (not_peek_ends lexed other), dif_neg (token ▸ tok.ret_ne_end), if_pos]
  rw [token]
  exact fun word => let ⟨text, same⟩ := Token.ret_eq_word.1 word; notWord text same

theorem parseargs_word {text : List Char} (lexed : lex s = .word text :: ts) : ∃ arg : Span,
    arg.Marks s text ∧ lex (afterToken s).1 = ts ∧ parseargs argc ret s =
      (if argc + 1 ≥ maxargs then .error (.panic "too many args")
      else do
        let redirs ← parseredirs (ret.addArg arg) (afterToken s).1
        let out ← parseargs (argc + 1) redirs.1 redirs.2.1
        .ok (out.1, (afterToken s).further (redirs.2.further out.2))) := by
  have other : ¬(Token.word text).Ends := by simp [Token.Ends]
  obtain ⟨token, rest, marks⟩ := afterToken_cons lexed
  have word : (gettoken (skipBlanks s)).ret = 'a' := token
  refine ⟨(gettoken (skipBlanks s)).span, marks text rfl, rest, ?_⟩
  rw [parseargs, if_neg (not_peek_ends lexed other), dif_neg (token ▸ Token.ret_ne_end _), if_neg (not_not.2 word)]

end Args

/-- The loop over `&` takes all of them. -/
theorem parsebacks_eq {n : Nat} {s : List Char} {more : List Token} (lexed : lex s = List.replicate n .amp ++ more)
    (stop : ∀ ts, more ≠ .amp :: ts) (cmd : Cmd Span) :
    lex (parsebacks cmd s).2.1 = more ∧ (parsebacks cmd s).1 = Nat.iterate Cmd.back n cmd := by
  induction n generalizing s cmd with
  | zero =>
    have notFound : ¬peek s ['&'] = true := by
      intro found
      obtain ⟨ts, again⟩ := peek_amp.1 found
      exact stop ts (lexed.symm.trans again)
    rw [parsebacks, dif_neg notFound]
    exact ⟨(lex_afterPeek s).trans lexed, rfl⟩
  | succ n ih =>
    obtain ⟨_, rest, _⟩ := afterToken_cons lexed
    rw [parsebacks, dif_pos (peek_amp.2 ⟨_, lexed⟩)]
    exact ih rest (.back cmd)

end MiniOS
