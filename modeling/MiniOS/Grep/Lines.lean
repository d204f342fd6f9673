import MiniOS.Grep.Matcher

namespace MiniOS.Grep

open Lib

variable {carry : List (BitVec 8)} {chunks : List (List (BitVec 8))}

/-- The lines of a text that end with a newline, and what is behind the last newline. -/
def lines : List (BitVec 8) → List (List (BitVec 8)) × List (BitVec 8)
  | [] => ([], [])
  | c :: text =>
    if c = newline then ([] :: (lines text).1, (lines text).2)
    else match lines text with
      | ([], rest) => ([], c :: rest)
      | (line :: more, rest) => ((c :: line) :: more, rest)

/-- What `grep` is to write of a text: the lines that match, each with its newline. -/
def selected (pattern text : List (BitVec 8)) : List (BitVec 8) :=
  ((lines text).1.filter (finds pattern)).flatMap (· ++ [newline])

variable {pattern text line : List (BitVec 8)}

theorem lines_of_notMem (whole : newline ∉ text) : lines text = ([], text) := by
  induction text with
  | nil => rfl
  | cons c text ih =>
    obtain ⟨other, rest⟩ := not_or.1 (mt List.mem_cons.2 whole)
    rw [lines, if_neg (Ne.symm other), ih rest]

theorem lines_append_newline (whole : newline ∉ line) (text : List (BitVec 8)) :
    lines (line ++ newline :: text) = (line :: (lines text).1, (lines text).2) := by
  induction line with
  | nil => rw [List.nil_append, lines, if_pos rfl]
  | cons c line ih =>
    obtain ⟨other, rest⟩ := not_or.1 (mt List.mem_cons.2 whole)
    rw [List.cons_append, lines, if_neg (Ne.symm other), ih rest]

/-- A text with a newline is split at the first. -/
theorem exists_first_line (member : newline ∈ text) : ∃ line rest, newline ∉ line ∧
    text = line ++ newline :: rest := by
  obtain ⟨line, rest, split, whole⟩ := List.eq_append_cons_of_mem member
  exact ⟨line, rest, whole, split⟩

theorem notMem_lines_rest (text : List (BitVec 8)) : newline ∉ (lines text).2 := by
  induction text with
  | nil => exact List.not_mem_nil
  | cons c text ih =>
    rw [lines]
    split
    · exact ih
    · rename_i other
      split
      · rename_i rest split
        rw [split] at ih
        exact fun member => (List.mem_cons.1 member).elim (fun same => other same.symm) ih
      · rename_i split
        rw [split] at ih
        exact ih

/-- The lines of a text are found piece by piece, if what is behind the last newline is
kept for the next piece. -/
theorem lines_append (first second : List (BitVec 8)) : lines (first ++ second) =
    ((lines first).1 ++ (lines ((lines first).2 ++ second)).1, (lines ((lines first).2 ++ second)).2) := by
  induction first with
  | nil => rfl
  | cons c first ih =>
    rw [List.cons_append, lines, lines, ih]
    by_cases ends : c = newline
    · rw [if_pos ends, if_pos ends]
      rfl
    · rw [if_neg ends, if_neg ends]
      cases split : lines first with
      | mk before rest =>
        cases before with
        | nil =>
          simp only [List.nil_append, List.cons_append]
          rw [lines, if_neg ends]
        | cons line more => rfl

theorem selected_of_notMem (whole : newline ∉ text) : selected pattern text = [] := by
  rw [selected, lines_of_notMem whole]
  rfl

theorem selected_append (pattern first second : List (BitVec 8)) :
    selected pattern (first ++ second) = selected pattern first ++ selected pattern ((lines first).2 ++ second) := by
  rw [selected, lines_append, List.filter_append, List.flatMap_append]
  rfl

theorem selected_line (whole : newline ∉ line) (text : List (BitVec 8)) : selected pattern (line ++ newline :: text) =
    (if finds pattern line = true then line ++ [newline] else []) ++ selected pattern text := by
  rw [selected, lines_append_newline whole, List.filter_cons]
  split
  · rw [List.flatMap_cons]
    rfl
  · rfl

/-- The empty pattern is found everywhere. -/
theorem finds_nil (text : List (BitVec 8)) : finds [] text = true := by
  rw [finds_iff]
  exact ⟨[], text, rfl, [], text, rfl, nil_mem_lang_nil, fun must => by cases must⟩

/-- For the empty pattern everything up to the last newline is selected. -/
theorem selected_nil_append (whole : newline ∉ line) (member : newline ∈ text) :
    selected [] (line ++ text) = line ++ selected [] text := by
  obtain ⟨first, rest, firstWhole, rfl⟩ := exists_first_line member
  have both : newline ∉ line ++ first := fun inside => (List.mem_append.1 inside).elim whole firstWhole
  rw [← List.append_assoc, selected_line both, selected_line firstWhole, finds_nil, finds_nil, if_pos rfl, if_pos rfl]
  simp only [List.append_assoc]

/-- What `grep` writes for the answers of `read`: it keeps what is behind the last newline,
but not if there is no newline in what was read. -/
def sweep (pattern : List (BitVec 8)) : List (BitVec 8) → List (List (BitVec 8)) → List (BitVec 8)
  | _, [] => []
  | carry, chunk :: chunks =>
    if newline ∈ chunk then selected pattern (carry ++ chunk) ++ sweep pattern (lines (carry ++ chunk)).2 chunks
    else sweep pattern [] chunks

/-- What `grep` keeps of a text. -/
def kept (carry chunk : List (BitVec 8)) : List (BitVec 8) :=
  if newline ∈ chunk then (lines (carry ++ chunk)).2 else []

/-- Every answer of `read` has a newline, unless no newline follows. -/
def Unbroken : List (List (BitVec 8)) → Prop
  | [] => True
  | chunk :: chunks => (newline ∈ chunks.flatten → newline ∈ chunk) ∧ Unbroken chunks

theorem sweep_of_unbroken (unbroken : Unbroken chunks)
    (unended : newline ∉ carry) : sweep pattern carry chunks = selected pattern (carry ++ chunks.flatten) := by
  induction chunks generalizing carry with
  | nil => rw [List.flatten_nil, List.append_nil, selected_of_notMem unended, sweep]
  | cons chunk chunks ih =>
    rw [sweep, List.flatten_cons, ← List.append_assoc]
    by_cases member : newline ∈ chunk
    · rw [if_pos member, ih unbroken.2 (notMem_lines_rest _), selected_append pattern (carry ++ chunk)]
    · have later : newline ∉ chunks.flatten := mt unbroken.1 member
      have never : newline ∉ carry ++ chunk ++ chunks.flatten := by
        simp only [List.mem_append, not_or]
        exact ⟨⟨unended, member⟩, later⟩
      rw [if_neg member, ih unbroken.2 List.not_mem_nil, List.nil_append, selected_of_notMem later,
        selected_of_notMem never]

/-- With the empty pattern nothing else is written than is to be written, but what was
dropped is missing. -/
theorem sweep_nil_length (unended : newline ∉ carry)
    (nonempty : ∀ chunk ∈ chunks, chunk ≠ []) :
    (sweep [] carry chunks).length ≤ (selected [] (carry ++ chunks.flatten)).length ∧
      (¬Unbroken chunks → (sweep [] carry chunks).length < (selected [] (carry ++ chunks.flatten)).length) := by
  induction chunks generalizing carry with
  | nil => exact ⟨by simp [sweep], fun broken => absurd trivial broken⟩
  | cons chunk chunks ih =>
    obtain ⟨filled, others⟩ := List.forall_mem_cons.1 nonempty
    rw [sweep, List.flatten_cons, ← List.append_assoc, Unbroken]
    by_cases member : newline ∈ chunk
    · obtain ⟨le, lt⟩ := ih (notMem_lines_rest (carry ++ chunk)) others
      rw [if_pos member, selected_append [] (carry ++ chunk), List.length_append, List.length_append]
      exact ⟨by omega, fun broken => by have := lt fun unbroken => broken ⟨fun _ => member, unbroken⟩; omega⟩
    · obtain ⟨le, lt⟩ := ih List.not_mem_nil others
      rw [if_neg member]
      rw [List.nil_append] at le lt
      have begun : newline ∉ carry ++ chunk := fun inside => (List.mem_append.1 inside).elim unended member
      by_cases later : newline ∈ chunks.flatten
      · rw [selected_nil_append begun later, List.length_append, List.length_append]
        have := List.length_pos_iff.2 filled
        exact ⟨by omega, fun _ => by omega⟩
      · have unselected : (selected [] chunks.flatten).length = 0 := by
          rw [selected_of_notMem later]
          rfl
        refine ⟨by omega, fun broken => ?_⟩
        have := lt fun unbroken => broken ⟨fun member => absurd member later, unbroken⟩
        omega

end MiniOS.Grep
