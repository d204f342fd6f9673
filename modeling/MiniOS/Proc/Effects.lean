import MiniOS.Proc.Table

namespace MiniOS.Ptable

open Function

variable {t : Ptable} {i p : Fin nproc}

/-- A part of the entries that a new entry has in common with the old one stays as it is. -/
theorem part_update {α : Type} (part : Proc → α) {e : Proc} (same : part e = part (t p)) (i : Fin nproc) :
    part (update t p e i) = part (t i) := by
  by_cases here : i = p
  · rw [here, update_self, same]
  · rw [update_of_ne here]

/-- Either `kill` finds no entry, or it marks the first one with the pid. -/
theorem kill_cases (t : Ptable) (pid : BitVec 32) :
    t.kill pid = (t, -1) ∨ ∃ i, (t i).pid = pid ∧ t.kill pid = (update t i { t i with
      killed := true, state := if (t i).state = .sleeping then .runnable else (t i).state }, 0) := by
  unfold kill
  split
  · rename_i i found
    exact .inr ⟨i, by simpa using List.find?_some found, rfl⟩
  · exact .inl rfl

theorem allocproc_eq_some {nextpid : BitVec 32} {u : Ptable} {np : Fin nproc}
    (found : t.allocproc nextpid = some (u, np)) :
    (t np).state = .unused ∧ u = update t np { t np with state := .embryo, pid := nextpid } := by
  unfold allocproc at found
  split at found
  · rename_i i first
    cases found
    exact ⟨by simpa using List.find?_some first, rfl⟩
  · cases found

section Wakeup1

variable (t : Ptable) (chan : Option Chan) (i : Fin nproc)

@[simp] theorem wakeup1_parent : (t.wakeup1 chan i).parent = (t i).parent := by
  unfold wakeup1
  split <;> rfl

@[simp] theorem wakeup1_chan : (t.wakeup1 chan i).chan = (t i).chan := by
  unfold wakeup1
  split <;> rfl

@[simp] theorem wakeup1_killed : (t.wakeup1 chan i).killed = (t i).killed := by
  unfold wakeup1
  split <;> rfl

@[simp] theorem wakeup1_pid : (t.wakeup1 chan i).pid = (t i).pid := by
  unfold wakeup1
  split <;> rfl

/-- A process is woken, or its state stays. -/
theorem wakeup1_state : (t.wakeup1 chan i).state =
    if (t i).state = .sleeping ∧ (t i).chan = chan then .runnable else (t i).state := by
  unfold wakeup1
  split <;> rfl

end Wakeup1

section SetState

variable (t : Ptable) (p i : Fin nproc) (state : ProcState)

theorem setState_of_ne {t : Ptable} {p i : Fin nproc} {state : ProcState} (other : i ≠ p) :
    t.setState p state i = t i :=
  update_of_ne other ..

@[simp] theorem setState_pid : (t.setState p state i).pid = (t i).pid := part_update Proc.pid (by rfl) i

@[simp] theorem setState_killed : (t.setState p state i).killed = (t i).killed := part_update Proc.killed (by rfl) i

@[simp] theorem setState_chan : (t.setState p state i).chan = (t i).chan := part_update Proc.chan (by rfl) i

@[simp] theorem setState_parent : (t.setState p state i).parent = (t i).parent := part_update Proc.parent (by rfl) i

end SetState

/-- What wakeups do to the state of a process. -/
inductive Woken : ProcState → ProcState → Prop
  | same (state : ProcState) : Woken state state
  | woken : Woken .sleeping .runnable

namespace Woken

variable {a b c : ProcState}

theorem trans (first : Woken a b) (second : Woken b c) : Woken a c := by
  cases first with
  | same => exact second
  | woken =>
    cases second with
    | same => exact .woken

theorem unused_iff (wakes : Woken a b) : b = .unused ↔ a = .unused := by
  cases wakes <;> simp

theorem zombie_iff (wakes : Woken a b) : b = .zombie ↔ a = .zombie := by
  cases wakes <;> simp

theorem embryo_iff (wakes : Woken a b) : b = .embryo ↔ a = .embryo := by
  cases wakes <;> simp

theorem of_sleeping (wakes : Woken a .sleeping) : a = .sleeping := by
  cases wakes
  rfl

end Woken

theorem woken_wakeup1 (t : Ptable) (chan : Option Chan) (i : Fin nproc) :
    Woken (t i).state (t.wakeup1 chan i).state := by
  rw [wakeup1_state]
  split
  · rename_i asleep
    rw [asleep.1]
    exact .woken
  · exact .same _

theorem woken_kill (t : Ptable) (pid : BitVec 32) (i : Fin nproc) : Woken (t i).state ((t.kill pid).1 i).state := by
  rcases t.kill_cases pid with missed | ⟨k, _, hit⟩
  · rw [missed]
    exact .same _
  · rw [hit]
    by_cases here : i = k
    · subst here
      simp only [update_self]
      split
      · rename_i asleep
        rw [asleep]
        exact .woken
      · exact .same _
    · simp only [update_of_ne here]
      exact .same _

theorem kill_parent (t : Ptable) (pid : BitVec 32) (i : Fin nproc) : ((t.kill pid).1 i).parent = (t i).parent := by
  rcases t.kill_cases pid with missed | ⟨k, _, hit⟩
  · rw [missed]
  · rw [hit]
    exact part_update Proc.parent (by rfl) i

theorem kill_chan (t : Ptable) (pid : BitVec 32) (i : Fin nproc) : ((t.kill pid).1 i).chan = (t i).chan := by
  rcases t.kill_cases pid with missed | ⟨k, _, hit⟩
  · rw [missed]
  · rw [hit]
    exact part_update Proc.chan (by rfl) i

theorem exitedChild_eq_some {child : Fin nproc} (found : t.exitedChild p = some child) :
    (t child).parent = some p ∧ (t child).state = .zombie := by
  simpa using List.find?_some found

theorem exitedChild_eq_none (none : t.exitedChild p = none) (child : Fin nproc) (kid : (t child).parent = some p) :
    (t child).state ≠ .zombie := by
  have all := List.find?_eq_none.1 none child (List.mem_finRange child)
  simpa [kid] using all

theorem wakeup1_not_sleeping {chan : Option Chan} (waits : (t i).chan = chan) :
    (t.wakeup1 chan i).state ≠ .sleeping := by
  rw [wakeup1_state]
  split
  · exact nofun
  · rename_i other
    exact fun asleep => other ⟨asleep, waits⟩

theorem wakeup1_adopt (t : Ptable) (chan : Option Chan) (p initproc : Fin nproc) :
    Ptable.wakeup1 (update t p { t p with parent := some initproc }) chan =
      update (t.wakeup1 chan) p { t.wakeup1 chan p with parent := some initproc } := by
  funext i
  by_cases here : i = p
  · subst here
    simp only [wakeup1, update_self]
    split <;> rfl
  · simp only [wakeup1, update_of_ne here]

/-- The loop of `exit` over the entries in `seen` leads from `t` to `u`. -/
structure Passes (curproc initproc : Fin nproc) (seen : List (Fin nproc)) (t u : Ptable) : Prop where
  pid : ∀ i, (u i).pid = (t i).pid
  killed : ∀ i, (u i).killed = (t i).killed
  chan : ∀ i, (u i).chan = (t i).chan
  state : ∀ i, Woken (t i).state (u i).state
  parent : ∀ i, (u i).parent = if i ∈ seen ∧ (t i).parent = some curproc then some initproc else (t i).parent
  wakes : ∀ i ∈ seen, (t i).parent = some curproc → (t i).state = .zombie →
    (t initproc).chan = some (.proc initproc) → (u initproc).state ≠ .sleeping

namespace Passes

variable {curproc initproc : Fin nproc} {seen : List (Fin nproc)} {t u : Ptable}

theorem start (t : Ptable) : Passes curproc initproc [] t t where
  pid _ := rfl
  killed _ := rfl
  chan _ := rfl
  state _ := .same _
  parent _ := by simp
  wakes _ none := absurd none List.not_mem_nil

section

variable (before : Passes curproc initproc seen t u)
include before

theorem parent_new (new : p ∉ seen) : (u p).parent = (t p).parent := by
  rw [before.parent, if_neg fun h => new h.1]

theorem zombie (i : Fin nproc) :
    (u i).state = .zombie ↔ (t i).state = .zombie := (before.state i).zombie_iff

theorem skip (other : (t p).parent ≠ some curproc) :
    Passes curproc initproc (seen ++ [p]) t u where
  pid := before.pid
  killed := before.killed
  chan := before.chan
  state := before.state
  parent i := by
    rw [before.parent]
    by_cases here : i = p
    · subst here
      simp [other]
    · simp [here]
  wakes i member child := by
    rcases List.mem_append.1 member with old | last
    · exact before.wakes i old child
    · rw [List.mem_singleton.1 last] at child
      exact absurd child other

theorem adopt (child : (t p).parent = some curproc)
    (awake : (t p).state = .zombie → (t initproc).chan = some (.proc initproc) → (u initproc).state ≠ .sleeping) :
    Passes curproc initproc (seen ++ [p]) t (update u p { u p with parent := some initproc }) := by
  have woken : ∀ i ∈ seen ++ [p], (t i).parent = some curproc → (t i).state = .zombie →
      (t initproc).chan = some (.proc initproc) → (u initproc).state ≠ .sleeping := by
    intro i member kid dead waits
    rcases List.mem_append.1 member with old | last
    · exact before.wakes i old kid dead waits
    · rw [List.mem_singleton.1 last] at dead
      exact awake dead waits
  have state : ∀ i, (update u p { u p with parent := some initproc } i).state = (u i).state :=
    part_update Proc.state (by rfl)
  refine ⟨fun i => (part_update Proc.pid (by rfl) i).trans (before.pid i),
    fun i => (part_update Proc.killed (by rfl) i).trans (before.killed i),
    fun i => (part_update Proc.chan (by rfl) i).trans (before.chan i),
    fun i => (state i).symm ▸ before.state i, fun i => ?_,
    fun i member kid dead waits => (state initproc).symm ▸ woken i member kid dead waits⟩
  by_cases here : i = p
  · subst here
    simp [child]
  · simp [here, before.parent]

theorem wakeInit (chan : Option Chan) :
    Passes curproc initproc seen t (u.wakeup1 chan) where
  pid i := (wakeup1_pid ..).trans (before.pid i)
  killed i := (wakeup1_killed ..).trans (before.killed i)
  chan i := (wakeup1_chan ..).trans (before.chan i)
  state i := (before.state i).trans (woken_wakeup1 ..)
  parent i := (wakeup1_parent ..).trans (before.parent i)
  wakes i member child dead waits asleep :=
    before.wakes i member child dead waits (Woken.of_sleeping (asleep ▸ woken_wakeup1 u chan initproc))

/-- One round of the loop. -/
theorem round (new : p ∉ seen) :
    Passes curproc initproc (seen ++ [p]) t (u.abandon curproc initproc p) := by
  have own := before.parent_new new
  unfold abandon
  by_cases child : (t p).parent = some curproc
  · rw [if_pos (own.trans child)]
    simp only [update_self]
    by_cases dead : (u p).state = .zombie
    · rw [if_pos dead, wakeup1_adopt]
      exact (before.wakeInit _).adopt child fun _ waits => wakeup1_not_sleeping ((before.chan _).trans waits)
    · rw [if_neg dead]
      exact before.adopt child fun zombie => absurd ((before.zombie p).2 zombie) dead
  · rw [if_neg fun h => child (own.symm.trans h)]
    exact before.skip child

theorem rounds {rest : List (Fin nproc)} (new : (seen ++ rest).Nodup) :
    Passes curproc initproc (seen ++ rest) t (rest.foldl (fun t p => t.abandon curproc initproc p) u) := by
  induction rest generalizing seen u with
  | nil => simpa using before
  | cons p rest ih =>
    have fresh : p ∉ seen := fun old => (List.nodup_append.1 new).2.2 p old p (.head _) rfl
    rw [List.append_cons] at new ⊢
    exact ih (before.round fresh) new

end

theorem all (curproc initproc : Fin nproc) (t : Ptable) :
    Passes curproc initproc (List.finRange nproc) t (t.abandonAll curproc initproc) :=
  (start t).rounds (List.nodup_finRange nproc)

end Passes

/-- What `exit` does to an entry other than that of the process itself, and
that it leaves neither the parent nor, with a zombie child, init asleep in `wait`. -/
structure Exits (curproc initproc : Fin nproc) (t u : Ptable) : Prop where
  pid : ∀ i, (u i).pid = (t i).pid
  killed : ∀ i, (u i).killed = (t i).killed
  chan : ∀ i, (u i).chan = (t i).chan
  state : ∀ i, i ≠ curproc → Woken (t i).state (u i).state
  self : (u curproc).state = .zombie
  parent : ∀ i, (u i).parent = if (t i).parent = some curproc then some initproc else (t i).parent
  wakesParent : ∀ w, (t curproc).parent = some w → (t w).chan = some (.proc w) → (u w).state ≠ .sleeping
  wakesInit : ∀ i, (t i).parent = some curproc → (t i).state = .zombie →
    (t initproc).chan = some (.proc initproc) → (u initproc).state ≠ .sleeping

theorem exits_exit (t : Ptable) (curproc initproc : Fin nproc) :
    Exits curproc initproc t (t.exit curproc initproc) := by
  have loop := Passes.all curproc initproc (t.wakeup1 ((t curproc).parent.map .proc))
  have before : ∀ i, (t.exit curproc initproc i).state = .sleeping →
      ((t.wakeup1 ((t curproc).parent.map .proc)).abandonAll curproc initproc i).state = .sleeping := by
    intro i asleep
    by_cases here : i = curproc
    · subst here
      simp [Ptable.exit, setState] at asleep
    · rwa [Ptable.exit, setState_of_ne here] at asleep
  refine ⟨fun i => ?_, fun i => ?_, fun i => ?_, fun i other => ?_, ?_, fun i => ?_, fun w parent waits asleep => ?_,
    fun i child dead waits asleep => ?_⟩
  · rw [Ptable.exit, setState_pid, loop.pid, wakeup1_pid]
  · rw [Ptable.exit, setState_killed, loop.killed, wakeup1_killed]
  · rw [Ptable.exit, setState_chan, loop.chan, wakeup1_chan]
  · rw [Ptable.exit, setState_of_ne other]
    exact (woken_wakeup1 t _ i).trans (loop.state i)
  · simp [Ptable.exit, setState]
  · rw [Ptable.exit, setState_parent, loop.parent]
    simp
  · have sleeping := loop.state w
    rw [before w asleep] at sleeping
    refine wakeup1_not_sleeping ?_ sleeping.of_sleeping
    rw [parent, waits]
    rfl
  · refine loop.wakes i (List.mem_finRange i) (by rw [wakeup1_parent, child]) ?_ (by rw [wakeup1_chan, waits])
      (before _ asleep)
    rw [wakeup1_state, if_neg (fun h => by rw [dead] at h; cases h.1), dead]

end MiniOS.Ptable
