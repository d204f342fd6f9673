import MiniOS.Grep.Lines

namespace MiniOS.Grep

open Lib Function

section Bytes

variable {mem mem' : Nat → BitVec 8} {a m : Nat} {l l' : List (BitVec 8)} {x rounds : Nat} {c : BitVec 8}

/-- The bytes from `a` on. -/
def HasBytes (mem : Nat → BitVec 8) : Nat → List (BitVec 8) → Prop
  | _, [] => True
  | a, c :: l => mem a = c ∧ HasBytes mem (a + 1) l

theorem HasBytes.congr (bytes : HasBytes mem a l) (same : ∀ x, a ≤ x → x < a + l.length → mem' x = mem x) :
    HasBytes mem' a l := by
  induction l generalizing a with
  | nil => trivial
  | cons c l ih =>
    simp only [List.length_cons] at same
    exact ⟨(same a (Nat.le_refl a) (by omega)).trans bytes.1, ih bytes.2 fun x low high =>
      same x (by omega) (by omega)⟩

theorem hasBytes_append : HasBytes mem a (l ++ l') ↔ HasBytes mem a l ∧ HasBytes mem (a + l.length) l' := by
  induction l generalizing a with
  | nil => simp [HasBytes]
  | cons c l ih =>
    rw [List.cons_append, HasBytes, ih, HasBytes, and_assoc, List.length_cons, Nat.add_assoc, Nat.add_comm 1]

theorem hasBytes_iff : HasBytes mem a l ↔ ∀ i < l.length, l[i]? = some (mem (a + i)) := by
  induction l generalizing a with
  | nil => simp [HasBytes]
  | cons c l ih =>
    rw [HasBytes, ih]
    constructor
    · rintro ⟨first, rest⟩ i bound
      cases i with
      | zero => exact congrArg some first.symm
      | succ i =>
        rw [List.getElem?_cons_succ, rest i (Nat.lt_of_succ_lt_succ bound), Nat.add_assoc, Nat.add_comm 1]
    · intro all
      refine ⟨(Option.some.inj (all 0 (by simp))).symm, fun i bound => ?_⟩
      have there := all (i + 1) (Nat.succ_lt_succ bound)
      rwa [List.getElem?_cons_succ, ← Nat.add_assoc, Nat.add_right_comm] at there

theorem bytesAt_eq (bytes : HasBytes mem a l) : bytesAt mem a l.length = l := by
  refine List.ext_getElem? fun i => ?_
  rw [bytesAt, List.getElem?_map]
  by_cases inside : i < l.length
  · rw [List.getElem?_range inside, hasBytes_iff.1 bytes i inside]
    rfl
  · rw [List.getElem?_eq_none (by simpa using inside), List.getElem?_eq_none (by simpa using inside)]
    rfl

theorem isString_iff : IsString mem a l ↔ HasBytes mem a l ∧ 0 ∉ l ∧ mem (a + l.length) = 0 := by
  induction l generalizing a with
  | nil => simp [IsString, HasBytes]
  | cons c l ih =>
    rw [IsString, HasBytes, ih, List.mem_cons, not_or, List.length_cons, Nat.add_assoc, Nat.add_comm 1]
    constructor
    · rintro ⟨first, visible, rest, others, ended⟩
      exact ⟨⟨first, rest⟩, ⟨visible.symm, others⟩, ended⟩
    · rintro ⟨⟨first, rest⟩, ⟨visible, others⟩, ended⟩
      exact ⟨first, Ne.symm visible, rest, others, ended⟩

theorem place_below (below : x < m) : place mem m l x = mem x := if_neg (by omega)

theorem hasBytes_place (mem : Nat → BitVec 8) (m : Nat) (l : List (BitVec 8)) : HasBytes (place mem m l) m l := by
  refine hasBytes_iff.2 fun i inside => ?_
  rw [place, if_pos (by omega), Nat.add_sub_cancel_left, List.getD_eq_getElem?_getD, List.getElem?_eq_getElem inside,
    Option.getD_some]

theorem IsString.congr (string : IsString mem a l) (same : ∀ x, a ≤ x → x ≤ a + l.length → mem' x = mem x) :
    IsString mem' a l := by
  obtain ⟨bytes, visible, ended⟩ := isString_iff.1 string
  refine isString_iff.2 ⟨bytes.congr fun x low high => same x low (by omega), visible, ?_⟩
  rw [same _ (by omega) (by omega), ended]

/-- A write before a string. -/
theorem IsString.update_before (string : IsString mem a l) (before : x < a) (b : BitVec 8) :
    IsString (update mem x b) a l :=
  string.congr fun y low _ => update_of_ne (by omega) ..

theorem IsString.after (string : IsString mem a (l ++ c :: l')) : IsString mem (a + l.length + 1) l' := by
  induction l generalizing a with
  | nil => exact string.2.2
  | cons x l ih =>
    have rest := ih string.2.2
    rwa [List.length_cons, show a + (l.length + 1) + 1 = a + 1 + l.length + 1 by omega]

/-- A nul at the end of the first part cuts the string there. -/
theorem IsString.cut (string : IsString mem a (l ++ c :: l')) :
    IsString (update mem (a + l.length) 0) a l := by
  obtain ⟨bytes, visible, _⟩ := isString_iff.1 string
  refine isString_iff.2 ⟨(hasBytes_append.1 bytes).1.congr fun x low high => update_of_ne (by omega) .., ?_,
    update_self ..⟩
  exact fun member => visible (List.mem_append_left _ member)

theorem strchr_none (string : IsString mem a l) (absent : c ∉ l) (enough : l.length < rounds) :
    strchr mem c rounds a = .ok none := by
  induction rounds generalizing a l with
  | zero => omega
  | succ rounds ih =>
    rw [strchr]
    cases l with
    | nil =>
      have ended : mem a = 0 := string
      rw [if_pos ended]
    | cons x l =>
      obtain ⟨first, visible, rest⟩ := string
      obtain ⟨other, absent⟩ := not_or.1 (mt List.mem_cons.2 absent)
      rw [first, if_neg visible, if_neg (Ne.symm other)]
      exact ih rest absent (by simp only [List.length_cons] at enough; omega)

theorem strchr_some (string : IsString mem a (l ++ c :: l')) (absent : c ∉ l)
    (enough : l.length < rounds) : strchr mem c rounds a = .ok (some (a + l.length)) := by
  induction rounds generalizing a l with
  | zero => omega
  | succ rounds ih =>
    rw [strchr]
    cases l with
    | nil =>
      obtain ⟨first, visible, _⟩ := string
      rw [first, if_neg visible, if_pos rfl]
      rfl
    | cons x l =>
      obtain ⟨first, visible, rest⟩ := string
      obtain ⟨other, absent⟩ := not_or.1 (mt List.mem_cons.2 absent)
      simp only [List.length_cons] at enough
      rw [first, if_neg visible, if_neg (Ne.symm other), ih rest absent (by omega), List.length_cons,
        show a + 1 + l.length = a + (l.length + 1) by omega]

end Bytes

theorem lines_rest_le (text : List (BitVec 8)) : (lines text).2.length + (lines text).1.length ≤ text.length := by
  induction text with
  | nil => exact Nat.le_refl 0
  | cons c text ih =>
    rw [lines]
    split
    · simp only [List.length_cons]
      omega
    · split <;> rename_i split <;> rw [split] at ih <;> simp only [List.length_cons,
        List.length_nil] at ih ⊢ <;> omega

theorem lines_rest_subset (text : List (BitVec 8)) : ∀ c ∈ (lines text).2, c ∈ text := by
  induction text with
  | nil => exact fun c member => member
  | cons x text ih =>
    intro c member
    rw [lines] at member
    split at member
    · exact .tail _ (ih c member)
    · split at member <;> rename_i split <;> rw [split] at ih
      · exact List.mem_cons.2 ((List.mem_cons.1 member).imp_right (ih c))
      · exact .tail _ (ih c member)

section Code

variable {re : Nat → BitVec 8} {pattern : List (BitVec 8)} {fuel : Nat}
  {carry chunk : List (BitVec 8)} {chunks : List (List (BitVec 8))}

/-- The inner loop writes the lines that match, and ends at what is behind the last newline. -/
theorem grepLines_eq (isPattern : IsString re 0 pattern) (enough : 2 * pattern.length + bufsize + 2 ≤ fuel)
    {rounds p : Nat} (s : Sweep) {text : List (BitVec 8)} (string : IsString s.buf p text)
    (fits : text.length < bufsize) (count : (lines text).1.length < rounds) :
    ∃ buf, grepLines re fuel rounds p s =
        .ok (p + (text.length - (lines text).2.length), ⟨buf, s.out ++ selected pattern text⟩) ∧
      IsString buf (p + (text.length - (lines text).2.length)) (lines text).2 := by
  induction rounds generalizing p s text with
  | zero => omega
  | succ rounds ih =>
    rw [grepLines]
    by_cases member : newline ∈ text
    · obtain ⟨line, after, whole, rfl⟩ := exists_first_line member
      have rest := lines_rest_le after
      rw [lines_append_newline whole] at count ⊢
      simp only [List.length_append, List.length_cons] at fits count ⊢
      have position : p + (line.length + (after.length + 1) - (lines after).2.length) =
          p + line.length + 1 + (after.length - (lines after).2.length) := by omega
      have cut : IsString (update s.buf (p + line.length) 0) p line := string.cut
      have behind : IsString (update s.buf (p + line.length) 0) (p + line.length + 1) after :=
        string.after.update_before (by omega) 0
      rw [strchr_some string whole (by omega), ok_bind, position, selected_line whole]
      simp only []
      rw [matchText_eq isPattern cut (by omega), ok_bind]
      cases finds pattern line with
      | false =>
        obtain ⟨buf, ended, kept⟩ := ih ⟨_, s.out⟩ behind (by omega) (by omega)
        exact ⟨buf, ended, kept⟩
      | true =>
        have bytes := (isString_iff.1 string).1
        have last : s.buf (p + line.length) = newline := (hasBytes_append.1 bytes).2.1
        have back : update (update s.buf (p + line.length) 0) (p + line.length) newline = s.buf := by
          rw [update_idem, ← last, update_eq_self]
        have written : bytesAt s.buf p (p + line.length + 1 - p) = line ++ [newline] := by
          have first : HasBytes s.buf p (line ++ [newline]) :=
            hasBytes_append.2 ⟨(hasBytes_append.1 bytes).1, last, trivial⟩
          have shown := bytesAt_eq first
          rwa [List.length_append, List.length_singleton, show line.length + 1 =
            p + line.length + 1 - p by omega] at shown
        obtain ⟨buf, ended, kept⟩ := ih ⟨s.buf, s.out ++ (line ++ [newline])⟩ string.after (by omega) (by omega)
        refine ⟨buf, ?_, kept⟩
        rw [if_pos rfl, back, written, ended, if_pos rfl, List.append_assoc]
    · rw [strchr_none string member (by omega), ok_bind, lines_of_notMem member, Nat.sub_self, Nat.add_zero,
        selected_of_notMem member, List.append_nil]
      exact ⟨s.buf, rfl, string⟩

/-- One round of the outer loop. -/
theorem grepChunk_eq (isPattern : IsString re 0 pattern) (enough : 2 * pattern.length + bufsize + 2 ≤ fuel)
    {s : Sweep} (bytes : HasBytes s.buf 0 carry) (unended : newline ∉ carry) (visible : 0 ∉ carry ++ chunk)
    (nonempty : chunk ≠ []) (room : chunk.length ≤ bufsize - carry.length - 1) :
    ∃ buf, grepChunk re fuel chunk carry.length s = .ok ((kept carry chunk).length,
        ⟨buf, s.out ++ if newline ∈ chunk then selected pattern (carry ++ chunk) else []⟩) ∧
      HasBytes buf 0 (kept carry chunk) := by
  have positive := List.length_pos_iff.2 nonempty
  have size : (carry ++ chunk).length = carry.length + chunk.length := List.length_append
  have string : IsString (update (place s.buf carry.length chunk) (carry.length + chunk.length) 0) 0
      (carry ++ chunk) := by
    have filled : HasBytes (place s.buf carry.length chunk) 0 (carry ++ chunk) := by
      refine hasBytes_append.2 ⟨bytes.congr fun x _ below => place_below (by omega), ?_⟩
      rw [Nat.zero_add]
      exact hasBytes_place s.buf carry.length chunk
    refine isString_iff.2 ⟨filled.congr fun x _ below => update_of_ne (by omega) .., visible, ?_⟩
    rw [Nat.zero_add, size, update_self]
  have rest := lines_rest_le (carry ++ chunk)
  have limit : (carry ++ chunk).length < bufsize := by
    simp only [bufsize] at room ⊢
    omega
  have count : (lines (carry ++ chunk)).1.length < bufsize := by omega
  obtain ⟨buf, ended, behind⟩ := grepLines_eq isPattern enough
    ⟨update (place s.buf carry.length chunk) (carry.length + chunk.length) 0, s.out⟩ string limit count
  rw [grepChunk]
  simp only [Nat.add_sub_cancel]
  rw [ended, ok_bind, kept]
  rw [Nat.zero_add] at behind
  by_cases member : newline ∈ chunk
  · obtain ⟨line, after, whole, split⟩ := exists_first_line (List.mem_append_right carry member)
    have lineCount : 0 < (lines (carry ++ chunk)).1.length := by
      rw [split, lines_append_newline whole]
      exact Nat.succ_pos _
    have left : carry.length + chunk.length - (0 + ((carry ++ chunk).length - (lines (carry ++ chunk)).2.length)) =
        (lines (carry ++ chunk)).2.length := by omega
    have advanced : ¬0 + ((carry ++ chunk).length - (lines (carry ++ chunk)).2.length) = 0 := by omega
    have filled : carry.length + chunk.length > 0 := by omega
    simp only [if_pos member, if_neg advanced, if_pos filled, left]
    refine ⟨_, rfl, ?_⟩
    rw [copyUp_eq (by omega)]
    refine hasBytes_iff.2 fun i inside => ?_
    rw [hasBytes_iff.1 (isString_iff.1 behind).1 i inside, moved, if_pos (by omega)]
    congr 2
    omega
  · have whole : newline ∉ carry ++ chunk := fun inside => (List.mem_append.1 inside).elim unended member
    have start : 0 + ((carry ++ chunk).length - (lines (carry ++ chunk)).2.length) = 0 := by
      rw [lines_of_notMem whole, Nat.sub_self]
    simp only [if_neg member, start, if_true, Nat.lt_irrefl, gt_iff_lt, if_false]
    exact ⟨buf, by rw [selected_of_notMem whole]; rfl, trivial⟩

/-- `read` returns no more than the room that `grep` has asked it to fill, and nothing
only at the end of the file. -/
def FitsRoom : List (BitVec 8) → List (List (BitVec 8)) → Prop
  | _, [] => True
  | carry, chunk :: chunks =>
    chunk ≠ [] ∧ chunk.length ≤ bufsize - carry.length - 1 ∧ FitsRoom (kept carry chunk) chunks

theorem FitsRoom.nonempty (fits : FitsRoom carry chunks) :
    ∀ chunk ∈ chunks, chunk ≠ [] := by
  induction chunks generalizing carry with
  | nil => exact fun _ member => absurd member List.not_mem_nil
  | cons first chunks ih => exact List.forall_mem_cons.2 ⟨fits.1, ih fits.2.2⟩

theorem kept_subset : ∀ c ∈ kept carry chunk, c ∈ carry ++ chunk := by
  intro c member
  rw [kept] at member
  split at member
  · exact lines_rest_subset _ c member
  · exact absurd member List.not_mem_nil

theorem grepFrom_eq (isPattern : IsString re 0 pattern) (enough : 2 * pattern.length + bufsize + 2 ≤ fuel)
    (visible : ∀ chunk ∈ chunks, 0 ∉ chunk) (s : Sweep) (carry : List (BitVec 8))
    (bytes : HasBytes s.buf 0 carry) (unended : newline ∉ carry) (visible' : 0 ∉ carry)
    (fits : FitsRoom carry chunks) :
    ∃ buf, grepFrom re fuel chunks carry.length s = .ok ⟨buf, s.out ++ sweep pattern carry chunks⟩ := by
  induction chunks generalizing s carry with
  | nil => exact ⟨s.buf, by rw [grepFrom, sweep, List.append_nil]⟩
  | cons chunk chunks ih =>
    obtain ⟨here, others⟩ := List.forall_mem_cons.1 visible
    obtain ⟨nonempty, room, later⟩ := fits
    have clean : 0 ∉ carry ++ chunk := fun member => (List.mem_append.1 member).elim visible' here
    obtain ⟨buf, ended, left⟩ := grepChunk_eq isPattern enough bytes unended clean nonempty room
    have unended' : newline ∉ kept carry chunk := by
      rw [kept]
      split
      · exact notMem_lines_rest _
      · exact List.not_mem_nil
    obtain ⟨buf', ended'⟩ := ih others ⟨buf, _⟩ (kept carry chunk) left unended'
      (fun member => clean (kept_subset 0 member)) later
    refine ⟨buf', ?_⟩
    rw [grepFrom, ended, ok_bind]
    refine (ended'.trans ?_)
    rw [sweep, kept]
    split
    · rw [List.append_assoc]
    · rw [List.append_nil]

theorem grep_eq (isPattern : IsString re 0 pattern) (enough : 2 * pattern.length + bufsize + 2 ≤ fuel)
    (visible : ∀ chunk ∈ chunks, 0 ∉ chunk) (fits : FitsRoom [] chunks)
    (buf : Nat → BitVec 8) : grep re fuel buf chunks = .ok (sweep pattern [] chunks) := by
  obtain ⟨_, ended⟩ := grepFrom_eq isPattern enough visible ⟨buf, []⟩ [] trivial List.not_mem_nil
    List.not_mem_nil fits
  rw [grep]
  rw [show grepFrom re fuel chunks 0 ⟨buf, []⟩ = _ from ended]
  rfl

end Code

/-- `grep` writes the lines that match, for every pattern, exactly if every answer of
`read` has a newline as long as one follows. -/
theorem grep_chunks_iff (chunks : List (List (BitVec 8))) (visible : ∀ chunk ∈ chunks, 0 ∉ chunk)
    (fits : FitsRoom [] chunks) :
    (∀ re pattern, IsString re 0 pattern → ∀ fuel, 2 * pattern.length + bufsize + 2 ≤ fuel → ∀ buf,
      grep re fuel buf chunks = .ok (selected pattern chunks.flatten)) ↔ Unbroken chunks := by
  constructor
  · intro right
    have isPattern : IsString (fun _ => 0) 0 [] := rfl
    have written := right (fun _ => 0) [] isPattern (bufsize + 2) (by simp) fun _ => 0
    rw [grep_eq isPattern (by simp) visible fits] at written
    have same : (sweep [] [] chunks).length = (selected [] chunks.flatten).length :=
      congrArg List.length (Except.ok.inj written)
    by_contra broken
    have missing := (sweep_nil_length List.not_mem_nil fits.nonempty).2 broken
    rw [List.nil_append] at missing
    omega
  · intro unbroken re pattern isPattern fuel enough buf
    rw [grep_eq isPattern enough visible fits, sweep_of_unbroken unbroken List.not_mem_nil, List.nil_append]

/-- The pattern `a` on the lines `ab`, `ca` and `d`. The second line starts behind the newline of
the first answer of `read` and ends in the second one. -/
theorem grep_line_in_two_chunks : FitsRoom [] [[0x61, 0x62, 0x0A, 0x63], [0x61, 0x0A, 0x64, 0x0A]] ∧
    grep (fun i => [0x61].getD i 0) 1028 (fun _ => 0) [[0x61, 0x62, 0x0A, 0x63], [0x61, 0x0A, 0x64, 0x0A]] =
      .ok [0x61, 0x62, 0x0A, 0x63, 0x61, 0x0A] := by
  have fits : FitsRoom [] [[0x61, 0x62, 0x0A, 0x63], [0x61, 0x0A, 0x64, 0x0A]] :=
    ⟨by decide, by decide, by decide, by decide, trivial⟩
  have isPattern : IsString (fun i => [0x61].getD i 0) 0 [0x61] := ⟨rfl, by decide, rfl⟩
  have written := (grep_chunks_iff [[0x61, 0x62, 0x0A, 0x63], [0x61, 0x0A, 0x64, 0x0A]] (by decide) fits).mpr
    ⟨by decide, by decide, trivial⟩ _ [0x61] isPattern 1028 (by decide) fun _ => 0
  exact ⟨fits, written.trans (by decide +kernel)⟩

/-- A line in two pieces without a newline in the first one: `ab` is dropped, and `c` does not match. -/
theorem grep_two_chunks : FitsRoom [] [[0x61, 0x62], [0x63, 0x0A]] ∧
    grep (fun i => [0x61].getD i 0) 1028 (fun _ => 0) [[0x61, 0x62], [0x63, 0x0A]] = .ok [] ∧
    selected [0x61] [[0x61, 0x62], [0x63, 0x0A]].flatten = [0x61, 0x62, 0x63, 0x0A] :=
  ⟨⟨by decide, by decide, by decide, by decide, trivial⟩, by decide +kernel, by decide +kernel⟩

end MiniOS.Grep
