namespace MiniOS.Lib

variable {σ ε α β : Type} {s : σ} {post : α → σ → Prop} {err : ε → Prop}
  {m : StateT σ (Except ε) α} {f : α → StateT σ (Except ε) β} {t : σ} {post' : α → σ → Prop} {err' : ε → Prop} {a : α}

/-- The computation started in `s` ends with a result and a state as in `post`,
or stops with an error as in `err`. -/
def wp (m : StateT σ (Except ε) α) (s : σ) (post : α → σ → Prop) (err : ε → Prop) : Prop :=
  match m s with
  | .ok (a, t) => post a t
  | .error e => err e

/-- Whether a computation is right can be found out by running it. -/
def decideResult [∀ a t, Decidable (post a t)] [DecidablePred err] : (r : Except ε (α × σ)) →
    Decidable (match r with | .ok (a, t) => post a t | .error e => err e)
  | .ok (a, t) => inferInstanceAs (Decidable (post a t))
  | .error e => inferInstanceAs (Decidable (err e))

instance [∀ a t, Decidable (post a t)] [DecidablePred err] {m : StateT σ (Except ε) α} : Decidable
    (wp m s post err) := decideResult (m s)

/-- A run of the computation finds the result and the state in which it ends. -/
theorem ends_of_decide [∀ a t, Decidable (post a t)] (test : decide (wp m s post fun _ => False) = true) :
    ∃ a t, m s = .ok (a, t) ∧ post a t := by
  have right := of_decide_eq_true test
  simp only [wp] at right
  split at right
  · exact ⟨_, _, by assumption, right⟩
  · exact right.elim

theorem wp_pure (a : α) : wp (pure a) s post err = post a s := rfl

theorem wp_modify (f : σ → σ) {post : PUnit → σ → Prop} : wp (modify f) s post err = post ⟨⟩ (f s) := rfl

/-- A sequence is right if its first part ends where the rest is right. -/
theorem wp_bind (m : StateT σ (Except ε) α) (f : α → StateT σ (Except ε) β) {post : β → σ → Prop} :
    wp (m >>= f) s post err = wp m s (fun a t => wp (f a) t post err) err := by
  simp only [wp, bind, StateT.bind]
  cases m s with
  | error e => rfl
  | ok result => rfl

/-- A sequence that ends has a first part that ends. -/
theorem run_bind {b : β} (ended : (m >>= f) s = .ok (b, t)) :
    ∃ a u, m s = .ok (a, u) ∧ f a u = .ok (b, t) := by
  simp only [bind, StateT.bind] at ended
  cases first : m s with
  | error e =>
    rw [first] at ended
    cases ended
  | ok result =>
    rw [first] at ended
    exact ⟨result.1, result.2, rfl, ended⟩

theorem wp_mono (before : wp m s post err)
    (ends : ∀ a t, post a t → post' a t) (stops : ∀ e, err e → err' e) : wp m s post' err' := by
  simp only [wp] at before ⊢
  split at before
  · exact ends _ _ before
  · exact stops _ before

/-- The first part ends in `mid`, and from there the rest is right. -/
theorem wp_seq {mid : α → σ → Prop} {post : β → σ → Prop}
    (first : wp m s mid err) (rest : ∀ a t, mid a t → wp (f a) t post err) : wp (m >>= f) s post err := by
  rw [wp_bind]
  exact wp_mono first rest fun _ => id

theorem wp_get_seq {f : σ → StateT σ (Except ε) α} (rest : wp (f s) s post err) : wp (get >>= f) s post err := rest

theorem wp_modify_seq {g : σ → σ} {f : PUnit → StateT σ (Except ε) α} (rest : wp (f ⟨⟩) (g s) post err) :
    wp (modify g >>= f) s post err := rest

theorem wp_seq_pair {m' : StateT σ (Except ε) β} {γ : Type} {f : β → StateT σ (Except ε) γ}
    {mid : β → σ → Prop} {post : γ → σ → Prop} (first : wp (m >>= fun _ => m') s mid err)
    (rest : ∀ b t, mid b t → wp (f b) t post err) : wp (m >>= fun _ => m' >>= f) s post err := by
  rw [wp_bind] at first
  exact wp_seq first fun _ t middle => wp_seq middle rest

theorem wp_ite {c : Prop} [Decidable c] {m' : StateT σ (Except ε) α} (yes : c → wp m s post err)
    (no : ¬c → wp m' s post err) : wp (if c then m else m') s post err := by
  by_cases h : c
  · rw [if_pos h]
    exact yes h
  · rw [if_neg h]
    exact no h

theorem wp_ok (right : wp m s post err) (ended : m s = .ok (a, t)) :
    post a t := by
  simpa only [wp, ended] using right

theorem wp_error {e : ε} (right : wp m s post err) (stopped : m s = .error e) : err e := by
  simpa only [wp, stopped] using right

/-- A computation that cannot end stops with an error. -/
theorem wp_stops (right : wp m s (fun _ _ => False) err) : ∃ e, m s = .error e ∧ err e := by
  simp only [wp] at right
  split at right
  · exact right.elim
  · exact ⟨_, by assumption, right⟩

/-- A computation that cannot stop with an error ends. -/
theorem wp_ends (right : wp m s post fun _ => False) : ∃ a t, m s = .ok (a, t) ∧ post a t := by
  simp only [wp] at right
  split at right
  · exact ⟨_, _, by assumption, right⟩
  · exact right.elim

theorem wp_eq_ok (right : wp m s (fun b u => b = a ∧ u = t) fun _ => False) :
    m s = .ok (a, t) := by
  obtain ⟨_, _, ended, rfl, rfl⟩ := wp_ends right
  exact ended

/-- A computation that ends and stops as `x` says is `x`. -/
theorem wp_eq {x : Except ε (α × σ)} (right : wp m s (fun a t => x = .ok (a, t)) fun e => x = .error e) :
    m s = x := by
  simp only [wp] at right
  split at right
  · rename_i ended
    exact ended.trans right.symm
  · rename_i stopped
    exact stopped.trans right.symm

theorem wp_true (m : StateT σ (Except ε) α) (s : σ) : wp m s (fun _ _ => True) fun _ => True := by
  simp only [wp]
  split <;> trivial

theorem wp_and (left : wp m s post err)
    (right : wp m s post' err') : wp m s (fun a t => post a t ∧ post' a t) (fun e => err e ∧ err' e) := by
  simp only [wp] at left right ⊢
  split at left <;> rename_i result <;> rw [result] at right
  · exact ⟨left, right⟩
  · exact ⟨left, right⟩

/-- The computation leaves the given part of the state as it is, and stops only
with the given errors. -/
def Keeps {ρ : Type} (part : σ → ρ) (err : ε → Prop) (m : StateT σ (Except ε) α) : Prop :=
  ∀ s, wp m s (fun _ t => part t = part s) err

namespace Keeps

variable {ρ : Type} {part : σ → ρ} {m m' : StateT σ (Except ε) α} {f : α → StateT σ (Except ε) β}

theorem pure (a : α) : Keeps part err (pure a) := fun _ => rfl

theorem throw {e : ε} (right : err e) : Keeps part err (throw e : StateT σ (Except ε) α) := fun _ => right

theorem get : Keeps part err get := fun _ => rfl

theorem modify {g : σ → σ} (same : ∀ s, part (g s) = part s) : Keeps part err (modify g) := same

theorem bind (first : Keeps part err m) (rest : ∀ a, Keeps part err (f a)) : Keeps part err (m >>= f) :=
  fun s => wp_seq (first s) fun a t before => wp_mono (rest a t) (fun _ _ after => after.trans before) fun _ => id

theorem ite {c : Prop} [Decidable c] (yes : Keeps part err m) (no : Keeps part err m') :
    Keeps part err (if c then m else m') := by
  split
  · exact yes
  · exact no

/-- A fact about that part of the state is still true at the end. -/
theorem wp (keeps : Keeps part err m) {post : α → σ → Prop} (after : ∀ a t, part t = part s → post a t) :
    wp m s post err :=
  wp_mono (keeps s) after fun _ => id

end Keeps

end MiniOS.Lib
