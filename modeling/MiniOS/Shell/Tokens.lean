import MiniOS.Shell.Code

namespace MiniOS

variable {a : Span} {s : List Char} {c : Char} {tok : Token}

/-- A token of a command line. -/
inductive Token
  | word (text : List Char)
  | less
  | more
  | moreMore
  | bar
  | amp
  | semi
  | opens
  | closes
  deriving DecidableEq

namespace Token

/-- The first character of a symbol. -/
def first : Token → Option Char
  | word _ => none
  | less => some '<'
  | more => some '>'
  | moreMore => some '>'
  | bar => some '|'
  | amp => some '&'
  | semi => some ';'
  | opens => some '('
  | closes => some ')'

/-- What `gettoken` returns for a token. -/
def ret : Token → Char
  | word _ => 'a'
  | moreMore => '+'
  | less => '<'
  | more => '>'
  | bar => '|'
  | amp => '&'
  | semi => ';'
  | opens => '('
  | closes => ')'

def ofSymbol : Char → Option Token
  | '<' => some less
  | '>' => some more
  | '|' => some bar
  | '&' => some amp
  | ';' => some semi
  | '(' => some opens
  | ')' => some closes
  | _ => none

end Token

/-- The tokens of a line: `>>` and the symbols, and the maximal runs of other characters
between them and whitespace. -/
def lex (s : List Char) : List Token :=
  match s with
  | [] => []
  | c :: cs =>
    if c ∈ whitespace then lex cs
    else if c = '>' ∧ cs.head? = some '>' then .moreMore :: lex cs.tail
    else match Token.ofSymbol c with
      | some tok => tok :: lex cs
      | none => .word (c :: cs.takeWhile wordChar) :: lex (cs.dropWhile wordChar)
termination_by s.length
decreasing_by
  · exact Nat.lt_succ_self _
  · exact Nat.lt_succ_of_le (List.tail_suffix cs).length_le
  · exact Nat.lt_succ_self _
  · exact Nat.lt_succ_of_le (List.dropWhile_suffix _).length_le

/-- The word that the two pointers enclose. -/
def Span.text (a : Span) : List Char := a.q.take (a.q.length - a.eq.length)

/-- The two pointers enclose a word of the line. -/
structure Span.Marks (a : Span) (s text : List Char) : Prop where
  inside : a.q <:+ s
  split : a.q = text ++ a.eq
  word : ∀ c ∈ text, wordChar c = true
  stop : ∀ c, a.eq.head? = some c → wordChar c = false

theorem Span.Marks.text_eq {text : List Char} (marks : a.Marks s text) : a.text = text := by
  rw [Span.text, marks.split, List.length_append, Nat.add_sub_cancel, List.take_left]

theorem lex_skipBlanks (s : List Char) : lex (skipBlanks s) = lex s := by
  induction s with
  | nil => rfl
  | cons c cs ih =>
    by_cases blank : c ∈ whitespace
    · rw [skipBlanks_cons_blank blank, ih, lex, if_pos blank]
    · rw [skipBlanks_cons_visible blank]

theorem ofSymbol_eq_some (symbol : Token.ofSymbol c = some tok) :
    tok.first = some c ∧ tok.ret = c ∧ c ∈ symbols := by
  unfold Token.ofSymbol at symbol
  split at symbol <;> cases symbol <;> exact ⟨rfl, rfl, by decide⟩

theorem exists_ofSymbol (member : c ∈ ['|', '(', ')', ';', '&', '<']) :
    c ≠ '>' ∧ ∃ tok, Token.ofSymbol c = some tok := by
  simp only [List.mem_cons, List.not_mem_nil, or_false] at member
  rcases member with rfl | rfl | rfl | rfl | rfl | rfl <;> exact ⟨by decide, _, rfl⟩

theorem lex_symbol {cs : List Char} (visible : c ∉ whitespace)
    (single : ¬(c = '>' ∧ cs.head? = some '>')) (symbol : Token.ofSymbol c = some tok) :
    lex (c :: cs) = tok :: lex (skipBlanks cs) := by
  rw [lex, if_neg visible, if_neg single, symbol, lex_skipBlanks]

/-- What `gettoken` finds after whitespace is skipped is the first token. -/
theorem tokenAt_spec (cs : List Char) (visible : c ∉ whitespace) : ∃ tok,
    lex (c :: cs) = tok :: lex (tokenAt (c :: cs)).rest ∧ (tokenAt (c :: cs)).ret = tok.ret ∧
      (tok.first = some c ∨ tok.first = none ∧ c ∉ symbols) ∧
      ∀ text, tok = .word text → (tokenAt (c :: cs)).span.Marks (c :: cs) text := by
  rw [tokenAt]
  split
  · rename_i member
    obtain ⟨other, tok, symbol⟩ := exists_ofSymbol member
    obtain ⟨first, ret, _⟩ := ofSymbol_eq_some symbol
    refine ⟨tok, lex_symbol visible (fun more => other more.1) symbol, ret.symm, .inl first, ?_⟩
    rintro text rfl
    cases first
  rename_i notSymbol
  split
  · rename_i more
    subst more
    split
    · rename_i twice
      refine ⟨.moreMore, ?_, rfl, .inl rfl, fun _ wrong => by cases wrong⟩
      rw [lex, if_neg visible, if_pos ⟨rfl, twice⟩, lex_skipBlanks]
    · rename_i once
      exact ⟨.more, lex_symbol visible (fun both => once both.2) rfl, rfl, .inl rfl, fun _ wrong => by cases wrong⟩
  · rename_i notMore
    have word := wordChar_of visible notSymbol notMore
    have notSymbols : c ∉ symbols := (of_decide_eq_true word).2
    have none : Token.ofSymbol c = none := by
      cases symbol : Token.ofSymbol c with
      | none => rfl
      | some tok => exact absurd (ofSymbol_eq_some symbol).2.2 notSymbols
    refine ⟨.word (c :: cs.takeWhile wordChar), ?_, rfl, .inr ⟨rfl, notSymbols⟩, ?_⟩
    · rw [lex, if_neg visible, if_neg fun both => notMore both.1, none, List.dropWhile_cons_of_pos word,
        lex_skipBlanks]
    · rintro _ ⟨⟩
      rw [List.dropWhile_cons_of_pos word]
      refine ⟨List.suffix_rfl, ?_, fun d member => ?_, fun d head => ?_⟩
      · rw [List.cons_append, List.takeWhile_append_dropWhile]
      · rcases List.mem_cons.1 member with rfl | inside
        · exact word
        · exact List.all_eq_true.1 List.all_takeWhile d inside
      · have stop := List.head?_dropWhile_not wordChar cs
        rw [head] at stop
        exact stop

theorem Span.Marks.mono {s' text : List Char} (marks : a.Marks s text) (suffix : s <:+ s') : a.Marks s' text :=
  ⟨marks.inside.trans suffix, marks.split, marks.word, marks.stop⟩

theorem gettoken_nil (none : lex s = []) : (gettoken s).ret = '\x00' ∧ lex (gettoken s).rest = [] := by
  rw [← lex_skipBlanks] at none
  rw [gettoken]
  cases skipped : skipBlanks s with
  | nil => exact ⟨rfl, lex.eq_1⟩
  | cons c cs =>
    obtain ⟨tok, lexed, _⟩ := tokenAt_spec cs (visible_of_skipBlanks skipped)
    rw [skipped, lexed] at none
    cases none

theorem gettoken_cons {ts : List Token} (some : lex s = tok :: ts) :
    (gettoken s).ret = tok.ret ∧ lex (gettoken s).rest = ts ∧ ∀ text, tok = .word text →
    (gettoken s).span.Marks s text := by
  rw [← lex_skipBlanks] at some
  rw [gettoken]
  cases skipped : skipBlanks s with
  | nil =>
    rw [skipped, lex] at some
    cases some
  | cons c cs =>
    obtain ⟨tok', lexed, ret, _, marks⟩ := tokenAt_spec cs (visible_of_skipBlanks skipped)
    rw [skipped, lexed] at some
    cases some
    exact ⟨ret, rfl, fun text same => (marks text same).mono (skipped ▸ skipBlanks_suffix s)⟩

/-- `peek` looks at the first token. -/
theorem peek_eq {toks : List Char} (known : ∀ c ∈ toks, c ∈ symbols) :
    peek s toks = ((lex s).head?.bind Token.first).any (· ∈ toks) := by
  rw [← lex_skipBlanks, peek]
  cases skipped : skipBlanks s with
  | nil =>
    rw [lex]
    rfl
  | cons c cs =>
    obtain ⟨tok, lexed, _, first, _⟩ := tokenAt_spec cs (visible_of_skipBlanks skipped)
    rw [lexed]
    rcases first with first | ⟨first, other⟩
    · simp [first]
    · have absent : c ∉ toks := fun member => other (known c member)
      simp [first, absent]

end MiniOS
