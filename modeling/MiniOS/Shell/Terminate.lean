import MiniOS.Shell.Parser

namespace MiniOS

open Lib Function

variable {α : Type} {kind : NonTerm} {ts : List Token} {t : Cmd (List Char)}

namespace Cmd

variable {α β : Type}

/-- The words of each `struct execcmd` of a command. -/
def execs : Cmd α → List (List α)
  | exec argv => [argv]
  | redir cmd _ _ _ => cmd.execs
  | pipe left right | list left right => left.execs ++ right.execs
  | back cmd => cmd.execs

theorem execs_map (f : α → β) (cmd : Cmd α) : (cmd.map f).execs = cmd.execs.map (List.map f) := by
  induction cmd with
  | exec argv => rfl
  | redir _ _ _ _ ih | back _ ih => exact ih
  | pipe _ _ ih ih' | list _ _ ih ih' => rw [map, execs, execs, ih, ih', List.map_append]

theorem leaves_map (f : α → β) (cmd : Cmd α) : (cmd.map f).leaves = cmd.leaves.map f := by
  induction cmd with
  | exec argv => rfl
  | redir cmd file mode fd ih => rw [map, leaves, leaves, ih, List.map_append, List.map_singleton]
  | pipe _ _ ih ih' | list _ _ ih ih' => rw [map, leaves, leaves, ih, ih', List.map_append]
  | back cmd ih => exact ih

end Cmd

theorem execs_node (op : RedirOp) (cmd : Cmd α) (file : α) : (op.node cmd file).execs = cmd.execs := by
  cases op <;> rfl

theorem execs_wrap (cmd : Cmd (List Char)) (rs : List Redir) : (wrap cmd rs).execs = cmd.execs := by
  induction rs generalizing cmd with
  | nil => rfl
  | cons r rs ih => exact (ih _).trans (execs_node r.op cmd r.file)

theorem leaves_wrap (cmd : Cmd (List Char)) (rs : List Redir) :
    (wrap cmd rs).leaves = cmd.leaves ++ rs.map Redir.file := by
  induction rs generalizing cmd with
  | nil => exact (List.append_nil _).symm
  | cons r rs ih =>
    rw [List.map_cons, List.append_cons, ← Cmd.leaves_node r.op]
    exact ih _

theorem file_mem_tokens {rs : List Redir} {w : List Char} (member : w ∈ rs.map Redir.file) :
    Token.word w ∈ rs.flatMap Redir.tokens := by
  obtain ⟨r, inside, rfl⟩ := List.mem_map.1 member
  exact List.mem_flatMap.2 ⟨r, inside, .tail _ (.head _)⟩

/-- The words of a tree are words of the line that it was derived for. -/
theorem Derives.word_mem (derives : Derives kind ts t) :
    ∀ w ∈ t.leaves, Token.word w ∈ ts := by
  induction derives with
  | line n _ ih =>
    rw [Cmd.iterate_back Cmd.leaves (fun _ => rfl)]
    exact fun w member => List.mem_append_left _ (ih w member)
  | list n _ _ ih ih' =>
    rw [Cmd.leaves, Cmd.iterate_back Cmd.leaves (fun _ => rfl)]
    intro w member
    rcases List.mem_append.1 member with left | right
    · exact List.mem_append_left _ (List.mem_append_left _ (ih w left))
    · exact List.mem_append_right _ (.tail _ (ih' w right))
  | single _ ih => exact ih
  | pipe _ _ ih ih' =>
    intro w member
    rcases List.mem_append.1 member with left | right
    · exact List.mem_append_left _ (ih w left)
    · exact List.mem_append_right _ (.tail _ (ih' w right))
  | block rs _ ih =>
    rw [leaves_wrap]
    intro w member
    rcases List.mem_append.1 member with inner | file
    · exact List.mem_append_left _ (.tail _ (ih w inner))
    · exact List.mem_append_right _ (.tail _ (file_mem_tokens file))
  | words rs args few =>
    rw [simple, leaves_wrap, List.map_append]
    intro w member
    rcases List.mem_append.1 member with word | file
    · obtain ⟨arg, inside, rfl⟩ := List.mem_map.1 word
      exact List.mem_append_right _ (List.mem_flatMap.2 ⟨arg, inside, List.mem_cons_self⟩)
    · rcases List.mem_append.1 file with first | later
      · exact List.mem_append_left _ (file_mem_tokens first)
      · obtain ⟨r, inside, rfl⟩ := List.mem_map.1 later
        obtain ⟨arg, among, here⟩ := List.mem_flatMap.1 inside
        exact List.mem_append_right _ (List.mem_flatMap.2 ⟨arg, among,
          .tail _ (file_mem_tokens (List.mem_map_of_mem here))⟩)

theorem Derives.execs_le (derives : Derives kind ts t) :
    ∀ argv ∈ t.execs, argv.length ≤ 9 := by
  induction derives with
  | line n _ ih =>
    rw [Cmd.iterate_back Cmd.execs (fun _ => rfl)]
    exact ih
  | list n _ _ ih ih' =>
    rw [Cmd.execs, Cmd.iterate_back Cmd.execs (fun _ => rfl)]
    exact fun argv member => (List.mem_append.1 member).elim (ih argv) (ih' argv)
  | single _ ih => exact ih
  | pipe _ _ ih ih' => exact fun argv member => (List.mem_append.1 member).elim (ih argv) (ih' argv)
  | block rs _ ih =>
    rw [execs_wrap]
    exact ih
  | words rs args few =>
    rw [simple, execs_wrap]
    intro argv member
    rw [List.mem_singleton.1 member, List.length_map]
    exact few

/-- The array `argv` of a `struct execcmd`, which `execcmd` has cleared: `parseexec` stores the
words in their order and a null pointer behind them. -/
def argvArray {α : Type} (argv : List α) : Nat → Option α :=
  let array := argv.zipIdx.foldl (fun (array : Nat → Option α) word => update array word.2 (some word.1))
    fun _ => none
  update array argv.length none

theorem stores_apply (argv : List α) (argc : Nat) (array : Nat → Option α) (i : Nat) :
    (argv.zipIdx argc).foldl (fun (array : Nat → Option α) word => update array word.2 (some word.1)) array i =
      if argc ≤ i ∧ i < argc + argv.length then argv[i - argc]? else array i := by
  induction argv generalizing argc array with
  | nil =>
    rw [List.length_nil, if_neg (by omega)]
    rfl
  | cons word argv ih =>
    rw [List.zipIdx_cons, List.foldl_cons, ih, List.length_cons]
    by_cases here : i = argc
    · subst here
      rw [if_neg (by omega), if_pos (by omega), update_self, Nat.sub_self]
      rfl
    · rw [update_of_ne here]
      by_cases later : argc + 1 ≤ i ∧ i < argc + 1 + argv.length
      · rw [if_pos later, if_pos (by omega), show i - argc = i - (argc + 1) + 1 by omega, List.getElem?_cons_succ]
      · rw [if_neg later, if_neg (by omega)]

theorem argvArray_apply (argv : List α) (i : Nat) : argvArray argv i = argv[i]? := by
  rw [argvArray]
  by_cases last : i = argv.length
  · rw [last, update_self, List.getElem?_eq_none Nat.le.refl]
  · rw [update_of_ne last, stores_apply]
    by_cases inside : i < argv.length
    · rw [if_pos ⟨Nat.zero_le _, by omega⟩, Nat.sub_zero]
    · rw [if_neg (by omega), List.getElem?_eq_none (by omega)]

/-- After `nulterminate` every word of the command, read as a string, is the text of its token, and
the words of an `exec` end with a null pointer. -/
theorem nulterminate_tokens {s : List Char} {t : Cmd (List Char)} (nulFree : '\x00' ∉ s)
    (parsed : parsecmd s = .ok t) :
    ∃ out, parseline s = .ok out ∧
      (∀ a ∈ out.1.leaves, ∃ text, Token.word text ∈ lex s ∧ a.Marks s text ∧
        cString s.length (nulterminate s.length out.1 fun i => s.getD i '\x00') a = text) ∧
      ∀ argv ∈ out.1.execs, argv.length < maxargs ∧ argvArray argv argv.length = none ∧
        ∀ i (less : i < argv.length), argvArray argv i = some argv[i] := by
  obtain ⟨out, call, _⟩ := bind_eq_ok.1 parsed
  have sound := (parses_soundly (List.suffix_refl s)).parseline
  rw [call] at sound
  obtain ⟨ts, lexed, derives⟩ := sound.tokens
  refine ⟨out, call, fun a member => ?_, fun argv member => ?_⟩
  · obtain ⟨text, marks⟩ := sound.good a member
    refine ⟨text, ?_, marks, (cString_eq_text nulFree sound.good member).trans marks.text_eq⟩
    rw [lexed]
    refine List.mem_append_left _ (derives.word_mem text ?_)
    rw [Cmd.leaves_map]
    exact List.mem_map.2 ⟨a, member, marks.text_eq⟩
  · have few : (argv.map Span.text).length ≤ 9 := by
      refine derives.execs_le _ ?_
      rw [Cmd.execs_map]
      exact List.mem_map_of_mem member
    rw [List.length_map] at few
    refine ⟨Nat.lt_succ_of_le few, ?_, fun i less => ?_⟩
    · rw [argvArray_apply, List.getElem?_eq_none (Nat.le_refl _)]
    · rw [argvArray_apply, List.getElem?_eq_getElem less]

/-- The words of `a>f`, whose terminators fall on the operator and on the end of the line. -/
theorem nulterminate_tokens_redirect : ∃ out, parseline ['a', '>', 'f'] = .ok out ∧
    ∀ a ∈ out.1.leaves, ∃ text, Token.word text ∈ lex ['a', '>', 'f'] ∧ a.Marks ['a', '>', 'f'] text ∧
      cString 3 (nulterminate 3 out.1 fun i => ['a', '>', 'f'].getD i '\x00') a = text := by
  have tokens : lex ['a', '>', 'f'] = [.word ['a'], .more, .word ['f']] := by
    simp [lex, whitespace, Token.ofSymbol, wordChar, symbols]
  have derives : Derives .line (lex ['a', '>', 'f']) (.redir (.exec [['a']]) ['f'] oWronlyCreate 1) := by
    rw [tokens]
    exact .line 0 (.single (.words [] [⟨['a'], [⟨.more, ['f']⟩]⟩] (by decide)))
  obtain ⟨_, call, rest, _⟩ := parse_complete derives (List.append_nil _).symm (Or.inl rfl)
  have parsed := parsecmd_eq (by decide) call rest
  obtain ⟨out, call, words, _⟩ := nulterminate_tokens (by decide) parsed
  exact ⟨out, call, words⟩

end MiniOS
