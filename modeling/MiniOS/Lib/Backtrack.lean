import Mathlib.Computability.Language

namespace MiniOS.Lib

variable {α : Type}

/-- An item of a simple regular expression: one letter as the test says, or any
number of such letters. -/
inductive Item (α : Type)
  | one (test : α → Bool)
  | many (test : α → Bool)

def Item.lang : Item α → Language α
  | .one test => {u | ∃ x, test x = true ∧ u = [x]}
  | .many test => {u | ∀ x ∈ u, test x = true}

/-- The words that a sequence of items stands for. -/
def lang (items : List (Item α)) : Language α := (items.map Item.lang).prod

/-- The text starts with a word of the items. If `whole` is set then the word is
the whole text. -/
def StartsWith (items : List (Item α)) (whole : Bool) (text : List α) : Prop :=
  ∃ u rest, text = u ++ rest ∧ u ∈ lang items ∧ (whole = true → rest = [])

/-- Tries `next` after each number of letters that pass the test. -/
def searchMany (test : α → Bool) (next : List α → Bool) : List α → Bool
  | [] => next []
  | x :: text => next (x :: text) || (test x && searchMany test next text)

/-- Decides `StartsWith` by backtracking. -/
def search : List (Item α) → Bool → List α → Bool
  | [], whole, text => !whole || text.isEmpty
  | .one _ :: _, _, [] => false
  | .one test :: items, whole, x :: text => test x && search items whole text
  | .many test :: items, whole, text => searchMany test (search items whole) text

theorem nil_mem_lang_nil : [] ∈ lang ([] : List (Item α)) := Language.nil_mem_one

theorem mem_lang_cons {item : Item α} {items : List (Item α)} {u : List α} :
    u ∈ lang (item :: items) ↔ ∃ v ∈ item.lang, ∃ w ∈ lang items, v ++ w = u := by
  rw [lang, List.map_cons, List.prod_cons]
  exact Language.mem_mul

theorem searchMany_iff {test : α → Bool} {next : List α → Bool} {text : List α} :
    searchMany test next text = true ↔ ∃ v rest, text = v ++ rest ∧ (∀ x ∈ v, test x = true) ∧ next rest = true := by
  induction text with
  | nil =>
    constructor
    · intro found
      exact ⟨[], [], rfl, by simp, found⟩
    · rintro ⟨v, rest, split, _, found⟩
      obtain ⟨rfl, rfl⟩ := List.append_eq_nil_iff.1 split.symm
      exact found
  | cons x text ih =>
    rw [searchMany, Bool.or_eq_true, Bool.and_eq_true, ih]
    constructor
    · rintro (found | ⟨passes, v, rest, rfl, all, found⟩)
      · exact ⟨[], x :: text, rfl, by simp, found⟩
      · exact ⟨x :: v, rest, rfl, List.forall_mem_cons.2 ⟨passes, all⟩, found⟩
    · rintro ⟨v, rest, split, all, found⟩
      cases v with
      | nil => exact .inl (by rw [split]; exact found)
      | cons y v =>
        obtain ⟨rfl, rfl⟩ := List.cons.inj split
        obtain ⟨passes, others⟩ := List.forall_mem_cons.1 all
        exact .inr ⟨passes, v, rest, rfl, others, found⟩

theorem search_iff {items : List (Item α)} {whole : Bool} {text : List α} :
    search items whole text = true ↔ StartsWith items whole text := by
  induction items generalizing text with
  | nil =>
    rw [search, Bool.or_eq_true, Bool.not_eq_true', List.isEmpty_iff]
    constructor
    · intro free
      refine ⟨[], text, rfl, nil_mem_lang_nil, fun must => free.resolve_left ?_⟩
      rw [must]
      decide
    · rintro ⟨u, rest, rfl, word, must⟩
      cases (Language.mem_one u).1 word
      cases whole
      · exact .inl rfl
      · exact .inr (must rfl)
  | cons item items ih =>
    cases item with
    | one test =>
      cases text with
      | nil =>
        rw [search]
        constructor
        · intro found
          cases found
        · rintro ⟨u, rest, split, word, _⟩
          obtain ⟨rfl, _⟩ := List.append_eq_nil_iff.1 split.symm
          obtain ⟨v, ⟨x, _, rfl⟩, w, _, joined⟩ := mem_lang_cons.1 word
          cases joined
      | cons x text =>
        rw [search, Bool.and_eq_true, ih]
        constructor
        · rintro ⟨passes, u, rest, rfl, word, must⟩
          exact ⟨x :: u, rest, rfl, mem_lang_cons.2 ⟨[x], ⟨x, passes, rfl⟩, u, word, rfl⟩, must⟩
        · rintro ⟨u, rest, split, word, must⟩
          obtain ⟨v, ⟨y, passes, rfl⟩, w, inner, rfl⟩ := mem_lang_cons.1 word
          obtain ⟨rfl, rfl⟩ := List.cons.inj split
          exact ⟨passes, w, rest, rfl, inner, must⟩
    | many test =>
      rw [search, searchMany_iff]
      constructor
      · rintro ⟨v, _, rfl, all, found⟩
        obtain ⟨u, rest, rfl, word, must⟩ := ih.1 found
        exact ⟨v ++ u, rest, (List.append_assoc ..).symm, mem_lang_cons.2 ⟨v, all, u, word, rfl⟩, must⟩
      · rintro ⟨u, rest, rfl, word, must⟩
        obtain ⟨v, all, w, inner, rfl⟩ := mem_lang_cons.1 word
        exact ⟨v, w ++ rest, List.append_assoc .., all, ih.2 ⟨w, rest, rfl, inner, must⟩⟩

end MiniOS.Lib
