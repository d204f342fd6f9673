import MiniOS.Grep.Code
import MiniOS.Lib.Backtrack
import MiniOS.Lib.Outcome

namespace MiniOS.Grep

open Lib

/-- The bytes from `a` up to the terminating nul. -/
def IsString (mem : Nat → BitVec 8) : Nat → List (BitVec 8) → Prop
  | a, [] => mem a = 0
  | a, c :: l => mem a = c ∧ c ≠ 0 ∧ IsString mem (a + 1) l

/-- The letters that a character of a pattern stands for. -/
def accepts (c x : BitVec 8) : Bool := c = dot || c = x

/-- The items of a pattern behind a leading `^`, from the left to the right. -/
def items : List (BitVec 8) → List (Item (BitVec 8))
  | [] => []
  | [c] => if c = dollar then [] else [.one (accepts c)]
  | c :: d :: rest => if d = asterisk then .many (accepts c) :: items rest else .one (accepts c) :: items (d :: rest)

/-- The last character of the pattern is a `$` without a star. -/
def toEnd : List (BitVec 8) → Bool
  | [] => false
  | [c] => c = dollar
  | _ :: d :: rest => if d = asterisk then toEnd rest else toEnd (d :: rest)

/-- Some part of the text is in the language of the pattern. -/
def Matches (pattern text : List (BitVec 8)) : Prop :=
  if pattern.head? = some caret then StartsWith (items pattern.tail) (toEnd pattern.tail) text
  else ∃ before rest, text = before ++ rest ∧ StartsWith (items pattern) (toEnd pattern) rest

/-- Decides `Matches`. -/
def finds (pattern text : List (BitVec 8)) : Bool :=
  if pattern.head? = some caret then search (items pattern.tail) (toEnd pattern.tail) text
  else searchMany (fun _ => true) (search (items pattern) (toEnd pattern)) text

theorem finds_iff {pattern text : List (BitVec 8)} : finds pattern text = true ↔ Matches pattern text := by
  unfold finds Matches
  split
  · exact search_iff
  · rw [searchMany_iff]
    simp only [search_iff, implies_true, true_and]

section Code

variable {re text : Nat → BitVec 8} {p t : List (BitVec 8)} {i j fuel : Nat}

theorem IsString.nul (string : IsString text j t) : text j = 0 ↔ t = [] := by
  cases t with
  | nil => exact ⟨fun _ => rfl, fun _ => string⟩
  | cons x t =>
    obtain ⟨here, visible, _⟩ := string
    rw [here]
    exact ⟨fun zero => absurd zero visible, fun empty => by cases empty⟩

/-- What `matchhere` computes, for every pattern and every text. -/
def HereRight (re text : Nat → BitVec 8) (fuel : Nat) : Prop :=
  ∀ {p t i j}, IsString re i p → IsString text j t → 2 * p.length + t.length < fuel →
    matchhere re text fuel i j = .ok (search (items p) (toEnd p) t)

def StarRight (re text : Nat → BitVec 8) (fuel : Nat) : Prop :=
  ∀ {p t i j} (c : BitVec 8), IsString re i p → IsString text j t → 2 * p.length + t.length + 1 < fuel →
    matchstar re text fuel c i j = .ok (searchMany (accepts c) (search (items p) (toEnd p)) t)

/-- A single character is tried on the next letter. -/
theorem matchhere_one {c : BitVec 8} (here : HereRight re text fuel) (first : re i = c)
    (pattern : IsString re (i + 1) p) (string : IsString text j t) (enough : 2 * p.length + t.length < fuel + 1) :
    (if text j ≠ 0 ∧ (re i = dot ∨ re i = text j) then matchhere re text fuel (i + 1) (j + 1) else .ok false) =
      .ok (search (.one (accepts c) :: items p) (toEnd p) t) := by
  cases t with
  | nil =>
    rw [if_neg fun test => test.1 string, search]
  | cons x t =>
    obtain ⟨letter, visible, rest⟩ := string
    rw [search, letter, first]
    by_cases accepted : c = dot ∨ c = x
    · rw [if_pos ⟨visible, accepted⟩, here pattern rest (by simp only [List.length_cons] at enough; omega)]
      simp only [accepts, accepted, decide_true, Bool.true_and, ← Bool.decide_or]
    · rw [if_neg fun test => accepted test.2]
      simp only [accepts, ← Bool.decide_or, accepted, decide_false, Bool.false_and]

theorem matchhere_right (here : HereRight re text fuel) (star : StarRight re text fuel) :
    HereRight re text (fuel + 1) := by
  intro p t i j pattern string enough
  rw [matchhere]
  match p, pattern with
  | [], ended =>
    have ended : re i = 0 := ended
    rw [if_pos ended]
    rfl
  | [c], ⟨first, visible, ended⟩ =>
    have ended : re (i + 1) = 0 := ended
    rw [if_neg (by rw [first]; exact visible), if_neg (by rw [ended]; decide), ended]
    by_cases last : c = dollar
    · rw [if_pos ⟨first.trans last, rfl⟩, items, if_pos last, toEnd, search]
      congr 1
      rw [decide_eq_true last, Bool.not_true, Bool.false_or, decide_eq_decide.2 string.nul]
      cases t <;> rfl
    · rw [if_neg fun test => last (first.symm.trans test.1), items, if_neg last, toEnd, decide_eq_false last]
      exact matchhere_one (p := []) here first ended string
        (by simp only [List.length_cons, List.length_nil] at enough ⊢; omega)
  | c :: d :: rest, ⟨first, visible, second, visible', behind⟩ =>
    rw [if_neg (by rw [first]; exact visible), second, items, toEnd]
    simp only [List.length_cons] at enough
    by_cases starred : d = asterisk
    · rw [if_pos starred, if_pos starred, if_pos starred, first]
      exact star c behind string (by omega)
    · rw [if_neg starred, if_neg starred, if_neg starred, if_neg fun test => visible' test.2]
      exact matchhere_one here first ⟨second, visible', behind⟩ string (by simp only [List.length_cons]; omega)

theorem matchstar_right (here : HereRight re text fuel) (star : StarRight re text fuel) :
    StarRight re text (fuel + 1) := by
  intro p t i j c pattern string enough
  rw [matchstar, here pattern string (by omega), ok_bind]
  cases t with
  | nil =>
    have ended : text j = 0 := string
    rw [searchMany]
    cases search (items p) (toEnd p) [] with
    | true => rfl
    | false => rw [if_neg Bool.false_ne_true, if_neg fun test => test.1 ended]
  | cons x t =>
    obtain ⟨letter, visible, rest⟩ := string
    rw [searchMany, letter]
    cases search (items p) (toEnd p) (x :: t) with
    | true => rfl
    | false =>
      simp only [Bool.false_eq_true, if_false, Bool.false_or]
      by_cases accepted : x = c ∨ c = dot
      · have passes : accepts c x = true := by
          simp only [accepts, ← Bool.decide_or]
          exact decide_eq_true (accepted.symm.imp_right Eq.symm)
        rw [if_pos ⟨visible, accepted⟩, star c pattern rest
          (by simp only [List.length_cons] at enough; omega), passes,
          Bool.true_and]
      · have fails : accepts c x = false := by
          simp only [accepts, ← Bool.decide_or]
          exact decide_eq_false fun test => accepted (test.symm.imp_left Eq.symm)
        rw [if_neg fun test => accepted test.2, fails, Bool.false_and]

/-- The two functions are right together, by induction on the depth of their calls. -/
theorem matcher_right (re text : Nat → BitVec 8) (fuel : Nat) : HereRight re text fuel ∧ StarRight re text fuel := by
  induction fuel with
  | zero => exact ⟨fun _ _ enough => absurd enough (by omega), fun _ _ _ enough => absurd enough (by omega)⟩
  | succ fuel ih => exact ⟨matchhere_right ih.1 ih.2, matchstar_right ih.1 ih.2⟩

theorem matchFrom_eq (pattern : IsString re i p) (string : IsString text j t)
    (enough : 2 * p.length + t.length + 1 < fuel) :
    matchFrom re text fuel i j = .ok (searchMany (fun _ => true) (search (items p) (toEnd p)) t) := by
  induction fuel generalizing j t with
  | zero => omega
  | succ fuel ih =>
    rw [matchFrom, (matcher_right re text fuel).1 pattern string (by omega), ok_bind]
    cases t with
    | nil =>
      have ended : text j = 0 := string
      rw [searchMany]
      cases search (items p) (toEnd p) [] with
      | true => rfl
      | false => rw [if_neg Bool.false_ne_true, if_neg fun visible => visible ended]
    | cons x t =>
      obtain ⟨letter, visible, rest⟩ := string
      rw [searchMany, letter, Bool.true_and]
      cases search (items p) (toEnd p) (x :: t) with
      | true => rfl
      | false =>
        rw [if_neg Bool.false_ne_true, if_pos visible, ih rest (by simp only [List.length_cons] at enough; omega),
          Bool.false_or]

theorem matchText_eq (pattern : IsString re i p) (string : IsString text j t)
    (enough : 2 * p.length + t.length + 1 < fuel) :
    matchText re text fuel i j = .ok (finds p t) := by
  rw [matchText, finds]
  cases p with
  | nil =>
    have ended : re i = 0 := pattern
    rw [ended, if_neg (by decide), if_neg (by simp)]
    exact matchFrom_eq pattern string enough
  | cons c p =>
    obtain ⟨first, visible, rest⟩ := pattern
    by_cases anchored : c = caret
    · rw [first, if_pos anchored, List.head?_cons, if_pos (congrArg some anchored), List.tail_cons]
      exact (matcher_right re text fuel).1 rest string (by simp only [List.length_cons] at enough; omega)
    · rw [first, if_neg anchored, List.head?_cons, if_neg fun same => anchored (Option.some.inj same)]
      exact matchFrom_eq ⟨first, visible, rest⟩ string enough

end Code

/-- `match` returns, and it returns 1 exactly if some part of the text is in the
language of the pattern. -/
theorem match_decides (re text : Nat → BitVec 8) (i j : Nat) (pattern line : List (BitVec 8))
    (isPattern : IsString re i pattern) (isLine : IsString text j line) :
    ∃ answer, (∀ fuel, 2 * pattern.length + line.length + 2 ≤ fuel → matchText re text fuel i j = .ok answer) ∧
      (answer = true ↔ Matches pattern line) :=
  ⟨finds pattern line, fun _ enough => matchText_eq isPattern isLine enough, finds_iff⟩

/-- The pattern `a*$` in the text `ba`. -/
theorem match_decides_star_end : ∃ answer,
    (∀ fuel, 2 * 3 + 2 + 2 ≤ fuel → matchText (fun i => [0x61, 0x2A, 0x24].getD i 0)
      (fun i => [0x62, 0x61].getD i 0) fuel 0 0 =
      .ok answer) ∧ (answer = true ↔ Matches [0x61, 0x2A, 0x24] [0x62, 0x61]) :=
  match_decides _ _ 0 0 [0x61, 0x2A, 0x24] [0x62, 0x61]
    ⟨rfl, by decide, rfl, by decide, rfl, by decide, rfl⟩ ⟨rfl, by decide, rfl, by decide, rfl⟩

end MiniOS.Grep
