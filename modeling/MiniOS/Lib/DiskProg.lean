import Mathlib.Logic.Function.Basic

namespace MiniOS.Lib

open Function

/-- A program that reads and writes a store of blocks, one block at a time. -/
inductive DiskProg (ι β α : Type) : Type
  | done (a : α)
  | read (i : ι) (next : β → DiskProg ι β α)
  | write (i : ι) (v : β) (next : DiskProg ι β α)

namespace DiskProg

variable {ι β α γ : Type} {s : ι → β}

def bind (p : DiskProg ι β α) (f : α → DiskProg ι β γ) : DiskProg ι β γ :=
  match p with
  | done a => f a
  | read i next => read i fun v => (next v).bind f
  | write i v next => write i v (next.bind f)

instance : Monad (DiskProg ι β) where
  pure := done
  bind := bind

def readBlock (i : ι) : DiskProg ι β β := read i done

def writeBlock (i : ι) (v : β) : DiskProg ι β Unit := write i v (done ())

@[simp] theorem done_bind (a : α) (f : α → DiskProg ι β γ) : (done a >>= f) = f a := rfl
@[simp] theorem read_bind (i : ι) (next : β → DiskProg ι β α) (f : α → DiskProg ι β γ) :
    (read i next >>= f) = read i fun v => next v >>= f := rfl
@[simp] theorem write_bind (i : ι) (v : β) (next : DiskProg ι β α) (f : α → DiskProg ι β γ) :
    (write i v next >>= f) = write i v (next >>= f) := rfl

variable [DecidableEq ι]

/-- The result and the store when the program runs to its end. -/
def run : DiskProg ι β α → (ι → β) → α × (ι → β)
  | done a, s => (a, s)
  | read i next, s => (next (s i)).run s
  | write i v next, s => next.run (update s i v)

/-- The blocks that the program writes, in the order of the writes. -/
def written : DiskProg ι β α → (ι → β) → List ι
  | done _, _ => []
  | read i next, s => (next (s i)).written s
  | write i v next, s => i :: next.written (update s i v)

/-- The store when the machine stops after at most `n` writes. -/
def crash : DiskProg ι β α → (ι → β) → Nat → (ι → β)
  | done _, s, _ => s
  | read i next, s, n => (next (s i)).crash s n
  | write _ _ _, s, 0 => s
  | write i v next, s, n + 1 => next.crash (update s i v) n

theorem run_bind (p : DiskProg ι β α) (f : α → DiskProg ι β γ) (s : ι → β) :
    (p >>= f).run s = (f (p.run s).1).run (p.run s).2 := by
  induction p generalizing s with
  | done a => rfl
  | read i next ih => exact ih (s i) s
  | write i v next ih => exact ih (update s i v)

/-- A crash while the first of two programs still has to write. -/
theorem crash_bind_early (p : DiskProg ι β α) (f : α → DiskProg ι β γ) {n : Nat} (early : n < (p.written s).length) :
    (p >>= f).crash s n = p.crash s n := by
  induction p generalizing s n with
  | done a => exact absurd early (Nat.not_lt_zero n)
  | read i next ih => exact ih (s i) early
  | write i v next ih =>
    cases n with
    | zero => rfl
    | succ n => exact ih (Nat.lt_of_succ_lt_succ early)

/-- A crash once the first of two programs has written everything. -/
theorem crash_bind_late (p : DiskProg ι β α) (f : α → DiskProg ι β γ) (n : Nat) :
    (p >>= f).crash s ((p.written s).length + n) = (f (p.run s).1).crash (p.run s).2 n := by
  induction p generalizing s with
  | done a => simp only [written, List.length_nil, Nat.zero_add, run, done_bind]
  | read i next ih => exact ih (s i)
  | write i v next ih =>
    have next := ih (s := update s i v)
    rw [written, List.length_cons, Nat.add_right_comm]
    exact next

/-- From a store with `pre`, the program ends with `post`, and wherever it
crashes the store has `crashed`. -/
def Triple (pre : (ι → β) → Prop) (p : DiskProg ι β α) (post : α → (ι → β) → Prop) (crashed : (ι → β) → Prop) :
    Prop :=
  ∀ s, pre s → post (p.run s).1 (p.run s).2 ∧ ∀ n, crashed (p.crash s n)

section Rules

variable {pre pre' crashed : (ι → β) → Prop} {post : α → (ι → β) → Prop} {post' : γ → (ι → β) → Prop}
  {i : ι} {p : DiskProg ι β α}

theorem Triple.of_done {a : α} (finish : ∀ s, pre s → post a s) (stop : ∀ s, pre s → crashed s) :
    Triple pre (done a) post crashed :=
  fun s start => ⟨finish s start, fun _ => stop s start⟩

theorem Triple.of_read {next : β → DiskProg ι β α}
    (rest : ∀ v, Triple (fun s => pre s ∧ s i = v) (next v) post crashed) : Triple pre (read i next) post crashed :=
  fun s start => rest (s i) s ⟨start, rfl⟩

theorem Triple.of_write {v : β} {next : DiskProg ι β α} (stop : ∀ s, pre s → crashed s)
    (moves : ∀ s, pre s → pre' (update s i v)) (rest : Triple pre' next post crashed) :
    Triple pre (write i v next) post crashed := by
  intro s start
  obtain ⟨finish, crashes⟩ := rest _ (moves s start)
  refine ⟨finish, fun n => ?_⟩
  cases n with
  | zero => exact stop s start
  | succ n => exact crashes n

theorem Triple.bind {f : α → DiskProg ι β γ} (first : Triple pre p post crashed)
    (second : ∀ a, Triple (post a) (f a) post' crashed) : Triple pre (p >>= f) post' crashed := by
  intro s start
  obtain ⟨finish, crashes⟩ := first s start
  obtain ⟨finish', crashes'⟩ := second _ _ finish
  refine ⟨by rw [run_bind]; exact finish', fun n => ?_⟩
  by_cases early : n < (p.written s).length
  · rw [crash_bind_early p f early]
    exact crashes n
  · obtain ⟨late, rfl⟩ := Nat.exists_eq_add_of_le (Nat.le_of_not_lt early)
    rw [crash_bind_late]
    exact crashes' late

theorem Triple.weaken {crashed' : (ι → β) → Prop} {post' : α → (ι → β) → Prop}
    (triple : Triple pre p post crashed) (start : ∀ s, pre' s → pre s) (finish : ∀ a s, post a s → post' a s)
    (stop : ∀ s, crashed s → crashed' s) : Triple pre' p post' crashed' := by
  intro s begins
  obtain ⟨ends, crashes⟩ := triple s (start s begins)
  exact ⟨finish _ _ ends, fun n => stop _ (crashes n)⟩

end Rules

/-- The program is started again after each crash, until it gets to its end. -/
inductive Restarts (p : DiskProg ι β Unit) : (ι → β) → (ι → β) → Prop
  | finish (s : ι → β) : Restarts p s (p.run s).2
  | again (s t : ι → β) (n : Nat) : Restarts p (p.crash s n) t → Restarts p s t

/-- If a crash always leaves a store from which the program may start, the
number of crashes does not matter. -/
theorem Triple.restarts {p : DiskProg ι β Unit} {pre post : (ι → β) → Prop} {t : ι → β}
    (triple : Triple pre p (fun _ => post) pre) (start : pre s) (restarts : Restarts p s t) : post t := by
  induction restarts with
  | finish s => exact (triple s start).1
  | again s t n _ ih => exact ih ((triple s start).2 n)

end DiskProg

end MiniOS.Lib
