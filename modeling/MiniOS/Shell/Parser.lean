import MiniOS.Shell.Complete

namespace MiniOS

open Lib Function

section Strings

variable {s : List Char} {cmd : Cmd Span} {a : Span}

theorem foldl_update {α : Type} {place : α → Nat} {value : Char} (as : List α) (buf : Nat → Char) (i : Nat) :
    as.foldl (fun buf a => update buf (place a) value) buf i =
      if ∃ a ∈ as, i = place a then value else buf i := by
  induction as generalizing buf with
  | nil => simp
  | cons a as ih =>
    rw [List.foldl_cons, ih]
    by_cases later : ∃ a ∈ as, i = place a
    · obtain ⟨b, member, here⟩ := later
      rw [if_pos ⟨b, member, here⟩, if_pos ⟨b, List.mem_cons_of_mem a member, here⟩]
    · rw [if_neg later, update_apply]
      refine if_congr ?_ rfl rfl
      simp only [List.mem_cons, exists_eq_or_imp, later, or_false]

/-- `nulterminate` writes a 0 after every word of the command and changes nothing else. -/
theorem nulterminate_apply (len : Nat) (cmd : Cmd Span) (buf : Nat → Char) (i : Nat) :
    nulterminate len cmd buf i = if ∃ a ∈ cmd.leaves, i = len - a.eq.length then '\x00' else buf i := by
  induction cmd generalizing buf with
  | exec argv => exact foldl_update argv buf i
  | redir cmd file mode fd ih =>
    rw [nulterminate, update_apply, ih]
    by_cases here : i = len - file.eq.length <;> simp [Cmd.leaves, here, or_and_right, exists_or]
  | pipe _ right ih ih' | list _ right ih ih' =>
    rw [nulterminate, ih', ih]
    by_cases here : ∃ a ∈ right.leaves, i = len - a.eq.length <;> simp [Cmd.leaves, here, or_and_right, exists_or]
  | back cmd ih => exact ih buf

/-- The character after a word is none of a word. -/
theorem Span.Marks.end_stops {text : List Char} {i : Nat} {c : Char} (marks : a.Marks s text)
    (here : i = s.length - a.eq.length) (char : s[i]? = some c) : wordChar c = false := by
  obtain ⟨before, rfl⟩ := marks.inside
  refine marks.stop c ?_
  rw [marks.split, ← List.append_assoc, List.length_append, Nat.add_sub_cancel] at here
  rw [marks.split, ← List.append_assoc, here, List.getElem?_append_right Nat.le.refl, Nat.sub_self] at char
  rw [← char, List.head?_eq_getElem?]

theorem takeWhile_range {f : Nat → Char} {p : Char → Bool} {n k : Nat} (before : ∀ i < n, p (f i) = true)
    (stop : 0 < k → p (f n) = false) : ((List.range (n + k)).map f).takeWhile p = (List.range n).map f := by
  rw [List.range_add, List.map_append, List.takeWhile_append_of_pos]
  · cases k with
    | zero => simp
    | succ k => simp [List.range_succ_eq_map, stop]
  · intro c member
    obtain ⟨i, inRange, rfl⟩ := List.mem_map.1 member
    exact before i (List.mem_range.1 inRange)

/-- After `nulterminate` a word is the string of its own characters. -/
theorem cString_eq_text (nulFree : '\x00' ∉ s) (good : ∀ a ∈ cmd.leaves, a.Good s) (member : a ∈ cmd.leaves) :
    cString s.length (nulterminate s.length cmd fun i => s.getD i '\x00') a = a.text := by
  obtain ⟨text, marks⟩ := good a member
  obtain ⟨before, whole⟩ := marks.inside
  have split : s = before ++ text ++ a.eq := by rw [← whole, marks.split, List.append_assoc]
  have start : s.length - a.q.length = before.length := by rw [← whole, List.length_append, Nat.add_sub_cancel]
  have inText {i : Nat} (less : i < text.length) : nulterminate s.length cmd (fun i => s.getD i '\x00')
      (before.length + i) = text[i] := by
    have char : s[before.length + i]? = some text[i] := by
      rw [split, List.append_assoc, List.getElem?_append_right (Nat.le_add_right _ _), Nat.add_sub_cancel_left,
        List.getElem?_append_left less, List.getElem?_eq_getElem less]
    rw [nulterminate_apply, if_neg, List.getD_eq_getElem?_getD, char, Option.getD_some]
    rintro ⟨b, member', here⟩
    obtain ⟨text', marks'⟩ := good b member'
    have stops := marks'.end_stops here char
    rw [marks.word _ (List.getElem_mem less)] at stops
    cases stops
  have atEnd : nulterminate s.length cmd (fun i => s.getD i '\x00') (before.length + text.length) = '\x00' := by
    rw [nulterminate_apply, if_pos]
    refine ⟨a, member, ?_⟩
    rw [split, List.length_append, List.length_append, Nat.add_sub_cancel]
  rw [cString, start, marks.text_eq, marks.split, List.length_append, takeWhile_range]
  · refine List.ext_getElem (by simp) fun i less less' => ?_
    rw [List.getElem_map, List.getElem_range, inText less']
  · intro i less
    rw [inText less]
    refine decide_eq_true fun zero => nulFree ?_
    rw [split, ← zero]
    exact List.mem_append_left _ (List.mem_append_right _ (List.getElem_mem less))
  · intro _
    rw [atEnd]
    rfl

end Strings

variable {s : List Char}

theorem skipBlanks_eq_nil : skipBlanks s = [] ↔ lex s = [] := by
  constructor
  · intro none
    rw [← lex_skipBlanks, none, lex]
  · intro none
    by_contra more
    obtain ⟨c, cs, skipped⟩ := List.exists_cons_of_ne_nil more
    obtain ⟨tok, lexed, _⟩ := tokenAt_spec cs (visible_of_skipBlanks skipped)
    rw [← lex_skipBlanks, skipped, lexed] at none
    cases none

theorem parsecmd_eq {out : Cmd Span × Rest s} (nulFree : '\x00' ∉ s) (call : parseline s = .ok out)
    (rest : lex out.2.1 = []) :
    parsecmd s = .ok (out.1.map Span.text) := by
  have sound := (parses_soundly (List.suffix_refl s)).parseline
  rw [call] at sound
  rw [parsecmd, call, ok_bind, if_neg (not_not.2 (skipBlanks_eq_nil.2 rest)),
    Cmd.map_congr fun a member => cString_eq_text nulFree sound.good member]

/-- The parser of the shell accepts exactly its grammar and builds the tree of the derivation. A line
that has none ends in a panic about its syntax. -/
theorem parsecmd_iff_derives (nulFree : '\x00' ∉ s) : (∀ t, parsecmd s = .ok t ↔ Derives .line (lex s) t) ∧
    ∀ e, parsecmd s = .error e → SyntaxPanic e := by
  have sound := (parses_soundly (List.suffix_refl s)).parseline
  refine ⟨fun t => ⟨fun returns => ?_, fun derives => ?_⟩, fun e fails => ?_⟩
  · obtain ⟨out, call, more⟩ := bind_eq_ok.mp returns
    rw [call] at sound
    obtain ⟨ts, lexed, derives⟩ := sound.tokens
    by_cases rest : skipBlanks out.2.1 = []
    · have none := skipBlanks_eq_nil.mp rest
      rw [parsecmd_eq nulFree call none] at returns
      cases returns
      rw [lexed, none, List.append_nil]
      exact derives
    · rw [if_pos rest] at more
      cases more
  · obtain ⟨out, call, rest, rfl⟩ := parse_complete derives (List.append_nil _).symm (Or.inl rfl)
    exact parsecmd_eq nulFree call rest
  · rw [parsecmd] at fails
    cases call : parseline s with
    | error e' =>
      rw [call] at fails sound
      cases fails
      exact sound
    | ok out =>
      rw [call, ok_bind] at fails
      split at fails
      · cases fails
        exact Or.inl rfl
      · cases fails

theorem lex_redirect_then_background : lex ['a', '>', 'f', ';', ' ', 'b', '&'] =
    [.word ['a'], .more, .word ['f'], .semi, .word ['b'], .amp] := by
  simp [lex, whitespace, Token.ofSymbol, wordChar, symbols]

theorem parsecmd_redirect_then_background : '\x00' ∉ ['a', '>', 'f', ';', ' ', 'b', '&'] ∧
    parsecmd ['a', '>', 'f', ';', ' ', 'b', '&'] =
      .ok (.list (.redir (.exec [['a']]) ['f'] oWronlyCreate 1) (.back (.exec [['b']]))) := by
  refine ⟨by decide, ((parsecmd_iff_derives (by decide)).1 _).mpr ?_⟩
  rw [lex_redirect_then_background]
  exact .list 0 (.single (.words [] [⟨['a'], [⟨.more, ['f']⟩]⟩] (by decide)))
    (.line 1 (.single (.words [] [⟨['b'], []⟩] (by decide))))

end MiniOS
