import MiniOS.Fs.Walk
import MiniOS.Fs.Entries
import Mathlib.Data.List.TakeWhile

namespace MiniOS

/-- The elements of a path: what stands between slashes before the terminating 0, and is not empty. -/
def elements (path : Bytes) : List Bytes := ((path.takeWhile (· ≠ 0)).splitOn slash).filter (· ≠ [])

/-- The names that a path consists of. -/
def components (path : Bytes) : List Bytes := (elements path).map (List.take dirsiz)

section Elements

variable {path rest name w : Bytes}

theorem elements_of_end (stop : path.headD 0 = 0) : elements path = [] := by
  cases path with
  | nil => rfl
  | cons c path =>
    rw [List.headD_cons] at stop
    rw [elements, List.takeWhile_cons_of_neg (by simpa using stop)]
    rfl

theorem elements_slash (path : Bytes) : elements (slash :: path) = elements path := by
  rw [elements, List.takeWhile_cons_of_pos (by decide), List.splitOn_cons_eq_if_modifyHead, if_pos (by decide),
    List.filter_cons_of_neg (by simp), elements]

theorem elements_dropWhile (path : Bytes) : elements (path.dropWhile (· = slash)) = elements path := by
  induction path with
  | nil => rfl
  | cons c path ih =>
    by_cases here : c = slash
    · rw [List.dropWhile_cons_of_pos (by simpa using here), ih, here, elements_slash]
    · rw [List.dropWhile_cons_of_neg (by simpa using here)]

/-- An element at the start of a path. -/
theorem elements_append (some : w ≠ []) (visible : ∀ c ∈ w, c ≠ slash ∧ c ≠ 0)
    (stop : rest.headD 0 = 0 ∨ rest.headD 0 = slash) :
    elements (w ++ rest) = w :: elements rest := by
  have seen : ∀ c ∈ w, decide (c ≠ 0) = true := fun c member => decide_eq_true (visible c member).2
  have whole : ∀ c ∈ w, (c == slash) = false := fun c member => by simpa using (visible c member).1
  rw [elements, List.takeWhile_append_of_pos seen]
  cases rest with
  | nil =>
    rw [List.takeWhile_nil, List.append_nil, List.splitOn_eq_singleton_of_beq_eq_false whole,
      List.filter_cons_of_pos (by simpa using some)]
    rfl
  | cons c rest =>
    rw [List.headD_cons] at stop
    rcases stop with rfl | rfl
    · rw [List.takeWhile_cons_of_neg (by simp), List.append_nil, List.splitOn_eq_singleton_of_beq_eq_false whole,
        List.filter_cons_of_pos (by simpa using some), elements_of_end rfl]
      rfl
    · rw [List.takeWhile_cons_of_pos (by decide), List.splitOn_eq_splitOnP,
        List.splitOnP_append_cons_of_forall_mem whole _ (by decide),
        List.filter_cons_of_pos (by simpa using some), elements_slash]
      rfl

theorem headD_dropWhile (p : BitVec 8 → Bool) (path : Bytes) (zero : p 0 = false) :
    p ((path.dropWhile p).headD 0) = false := by
  induction path with
  | nil => exact zero
  | cons c path ih =>
    by_cases here : p c = true
    · rwa [List.dropWhile_cons_of_pos here]
    · rw [List.dropWhile_cons_of_neg here, List.headD_cons]
      exact eq_false_of_ne_true here

/-- `skipelem` finds no element at the end of the path. -/
theorem elements_of_skipelem_none (skips : skipelem path = none) : elements path = [] := by
  rw [skipelem] at skips
  dsimp only at skips
  split at skips
  · rename_i stop
    rw [← elements_dropWhile, elements_of_end stop]
  · cases skips

/-- A path that does not start with a slash or its end starts with an element. -/
theorem elements_of_visible (visible : path.headD 0 ≠ 0) (other : path.headD 0 ≠ slash) :
    path.takeWhile (fun c => c ≠ slash ∧ c ≠ 0) ≠ [] ∧ elements path = path.takeWhile (fun c => c ≠ slash ∧ c ≠ 0) ::
      elements (path.dropWhile fun c => c ≠ slash ∧ c ≠ 0) := by
  have some : path.takeWhile (fun c => c ≠ slash ∧ c ≠ 0) ≠ [] := by
    cases path with
    | nil => exact absurd rfl visible
    | cons c path =>
      rw [List.headD_cons] at visible other
      rw [List.takeWhile_cons_of_pos (by simpa using ⟨other, visible⟩)]
      exact List.cons_ne_nil _ _
  refine ⟨some, ?_⟩
  have seen : ∀ c ∈ path.takeWhile (fun c => c ≠ slash ∧ c ≠ 0), c ≠ slash ∧ c ≠ 0 := by
    intro c member
    simpa using List.mem_takeWhile_imp member
  have stop := headD_dropWhile (fun c => c ≠ slash ∧ c ≠ 0) path (by decide)
  rw [decide_eq_false_iff_not, not_and_or, not_not, not_not] at stop
  have split := elements_append some seen stop.symm
  rwa [List.takeWhile_append_dropWhile] at split

/-- `skipelem` takes the first element off the path. -/
theorem elements_of_skipelem (skips : skipelem path = some (name, rest)) :
    ∃ w, elements path = w :: elements rest ∧ name = w.take dirsiz ∧ rest.length < path.length ∧
    rest.headD 0 ≠ slash := by
  rw [skipelem] at skips
  dsimp only at skips
  split at skips
  · cases skips
  · rename_i visible
    cases skips
    have start := headD_dropWhile (fun c => c = slash) path (by decide)
    have other : (path.dropWhile (· = slash)).headD 0 ≠ slash := of_decide_eq_false start
    obtain ⟨some, split⟩ := elements_of_visible visible other
    refine ⟨_, ?_, rfl, ?_, of_decide_eq_false (headD_dropWhile (fun c => c = slash) _ (by decide))⟩
    · rw [elements_dropWhile, ← split, elements_dropWhile]
    · have shorter : (path.dropWhile (· = slash)).length ≤ path.length := (List.dropWhile_suffix _).length_le
      have cut := congrArg List.length (List.takeWhile_append_dropWhile (p := fun c => decide (c ≠ slash ∧ c ≠ 0))
        (l := path.dropWhile (· = slash)))
      rw [List.length_append] at cut
      have last : (((path.dropWhile (· = slash)).dropWhile fun c => c ≠ slash ∧ c ≠ 0).dropWhile (· = slash)).length ≤
          ((path.dropWhile (· = slash)).dropWhile fun c => c ≠ slash ∧ c ≠ 0).length :=
          (List.dropWhile_suffix _).length_le
      have := List.length_pos_of_ne_nil some
      omega

/-- The path is at its end if and only if no element is left. -/
theorem elements_eq_nil (other : path.headD 0 ≠ slash) : elements path = [] ↔ path.headD 0 = 0 := by
  refine ⟨fun none => ?_, elements_of_end⟩
  by_contra visible
  rw [(elements_of_visible visible other).2] at none
  cases none

end Elements

namespace View

variable (v : View)

/-- The inode that a name leads to from inode `i`. -/
def child (i : Nat) (name : Bytes) : Option Nat :=
  match v.node i with
  | some n => if n.type = tDir then (lookup n.data name).map Prod.fst else none
  | none => none

/-- The inode that the names lead to, one after the other. -/
def resolve (i : Nat) (names : List Bytes) : Option Nat := names.foldlM v.child i

/-- Inode `i` as the place of a name. -/
def place (i : Nat) (name : Bytes) : Option (Nat × Bytes) :=
  match v.node i with
  | some n => if n.type = tDir then some (i, name) else none
  | none => none

/-- The directory that the names before the last lead to, and the last name. -/
def resolveParent (i : Nat) (names : List Bytes) : Option (Nat × Bytes) := do
  let last ← names.getLast?
  let d ← v.resolve i names.dropLast
  v.place d last

/-- A tree of directories: they consist of whole entries, and the inode of an entry is
allocated and, unless it is the directory itself, has links. -/
structure Tree : Prop where
  root : ∃ n, v.node rootino = some n ∧ n.nlink ≠ 0
  whole : ∀ {i n}, v.node i = some n → n.type = tDir → n.data.length % 16 = 0
  entry : ∀ {i n} {de : Dirent}, v.node i = some n → n.type = tDir → de ∈ entries n.data → de.inum ≠ 0 →
    ∃ m, v.node de.inum.toNat = some m ∧ (de.inum.toNat = i ∨ m.nlink ≠ 0)

variable {v} {X : Multiset Handle} {rounds i j : Nat} {path name : Bytes} {names : List Bytes}
  {n m : Node} {off : Nat}

theorem keeps_of_linked (there : v.node i = some n) (linked : n.nlink ≠ 0) : v.Keeps X i := by
  rintro ⟨n', there', gone⟩
  cases there.symm.trans there'
  exact absurd gone linked

theorem Tree.found (tree : v.Tree) (there : v.node i = some n) (dir : n.type = tDir)
    (found : lookup n.data name = some (j, off)) :
    ∃ m, v.node j = some m ∧ (j = i ∨ m.nlink ≠ 0) := by
  obtain ⟨x, de, -, here, used, -, rfl⟩ := lookup_entry (tree.whole there dir) found
  exact tree.entry there dir (List.mem_of_getElem? here) used

theorem Tree.walkable (tree : v.Tree) (inside : ∀ {i n}, v.node i = some n → i < v.ninodes) : v.Walkable X where
  root := by
    obtain ⟨n, there, -⟩ := tree.root
    exact inside there
  start := by
    obtain ⟨n, there, linked⟩ := tree.root
    exact keeps_of_linked there linked
  whole := tree.whole
  range there dir found := by
    obtain ⟨m, there', -⟩ := tree.found there dir found
    exact inside there'
  kept there dir found := by
    obtain ⟨m, there', same | linked⟩ := tree.found there dir found
    · exact .inl same
    · exact .inr (keeps_of_linked there' linked)

theorem resolve_cons (i : Nat) (name : Bytes) (names : List Bytes) :
    v.resolve i (name :: names) = (v.child i name).bind fun j => v.resolve j names := List.foldlM_cons ..

/-- What the names lead to is allocated. -/
theorem Tree.resolved (tree : v.Tree) (there : v.node i = some n) (found : v.resolve i names = some j) :
    ∃ m, v.node j = some m := by
  induction names generalizing i n with
  | nil =>
    cases found
    exact ⟨n, there⟩
  | cons name names ih =>
    rw [resolve_cons] at found
    obtain ⟨k, next, found⟩ := Option.bind_eq_some_iff.1 found
    rw [child, there] at next
    dsimp only at next
    split at next
    · rename_i dir
      obtain ⟨⟨k', off⟩, look, rfl⟩ := Option.map_eq_some_iff.1 next
      obtain ⟨m, there', -⟩ := tree.found there dir look
      exact ih there' found
    · cases next

theorem resolveParent_single (i : Nat) (name : Bytes) : v.resolveParent i [name] = v.place i name := rfl

theorem resolveParent_cons (some : names ≠ []) (i : Nat) (name : Bytes) :
    v.resolveParent i (name :: names) = (v.child i name).bind fun j => v.resolveParent j names := by
  cases names with
  | nil => exact absurd rfl some
  | cons second names =>
    simp only [resolveParent, List.getLast?_cons_cons, List.dropLast_cons_cons, resolve_cons]
    cases (second :: names).getLast? with
    | none | some => cases v.child i name <;> rfl

theorem components_of_skipelem {rest : Bytes} (skips : skipelem path = some (name, rest)) :
    components path = name :: components rest ∧ rest.length < path.length ∧
    (components rest = [] ↔ rest.headD 0 = 0) := by
  obtain ⟨w, split, rfl, shorter, other⟩ := elements_of_skipelem skips
  refine ⟨by rw [components, split]; rfl, shorter, ?_⟩
  rw [components, List.map_eq_nil_iff, elements_eq_nil other]

theorem components_of_skipelem_none (skips : skipelem path = none) : components path = [] := by
  rw [components, elements_of_skipelem_none skips]
  rfl

/-- A walk along a path looks up its components. -/
theorem Tree.walk (tree : v.Tree) (there : v.node i = some n) (enough : path.length < rounds) :
    v.walk false rounds i path = .ok ((v.resolve i (components path)).map fun j => (j, [])) ∧
      v.walk true rounds i path = .ok (v.resolveParent i (components path)) := by
  induction rounds generalizing i n path with
  | zero => exact absurd enough (Nat.not_lt_zero _)
  | succ rounds ih =>
    rw [View.walk, View.walk]
    cases skips : skipelem path with
    | none =>
      rw [components_of_skipelem_none skips]
      exact ⟨rfl, rfl⟩
    | some elem =>
      obtain ⟨name, rest⟩ := elem
      obtain ⟨split, shorter, last⟩ := components_of_skipelem skips
      simp only [there, split]
      by_cases dir : n.type = tDir
      · simp only [dir, ne_eq, not_true_eq_false, if_false, Bool.false_eq_true, false_and, true_and]
        cases found : lookup n.data name with
        | none =>
          have absent : v.child i name = none := by simp only [child, there, dir, if_true, found, Option.map_none]
          refine ⟨by rw [resolve_cons, absent]; rfl, ?_⟩
          split
          · rename_i stop
            rw [last.2 stop, resolveParent_single, place, there]
            simp only [dir, if_true]
          · rename_i more
            rw [resolveParent_cons (mt last.1 more), absent]
            rfl
        | some at' =>
          obtain ⟨j, off⟩ := at'
          have present : v.child i name = some j := by simp only [child, there, dir, if_true, found, Option.map_some]
          obtain ⟨m, there', -⟩ := tree.found there dir found
          have few : rest.length < rounds := by omega
          obtain ⟨walk, walkParent⟩ := ih there' few
          refine ⟨by rw [resolve_cons, present]; exact walk, ?_⟩
          split
          · rename_i stop
            rw [last.2 stop, resolveParent_single, place, there]
            simp only [dir, if_true]
          · rename_i more
            rw [resolveParent_cons (mt last.1 more), present]
            exact walkParent
      · have absent : v.child i name = none := by simp only [child, there, dir, if_false]
        simp only [dir, ne_eq, not_false_eq_true, if_true]
        refine ⟨by rw [resolve_cons, absent]; rfl, ?_⟩
        by_cases stop : rest.headD 0 = 0
        · rw [last.2 stop, resolveParent_single, place, there]
          simp only [dir, if_false]
        · rw [resolveParent_cons (mt last.1 stop), absent]
          rfl

end View

end MiniOS
