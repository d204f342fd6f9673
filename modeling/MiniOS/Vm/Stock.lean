import Mathlib.Data.Finset.Card
import MiniOS.Vm.Space

namespace MiniOS.Vm

open Function

/-- The next `n` calls of `kalloc` return a page. -/
def Mem.Ample (m : Mem) (n : Nat) : Prop := n ≤ m.free.length ∧ ∀ i < n, m.grant i = true

/-- The entries of the directory in `T` that have no page table. -/
def Mem.lacking (m : Mem) (d : Nat) (T : Finset Nat) : Finset Nat := T.filter fun i => (m.space d).table i = none

/-- There are enough pages for the page tables that are lacking in `T`, and for `n` more. -/
def Stocked (d : Nat) (T : Finset Nat) (n : Nat) (m : Mem) : Prop := m.Ample ((m.lacking d T).card + n)

variable {m m' m'' : Mem} {d n : Nat} {T : Finset Nat}

theorem Mem.Ample.mono {k : Nat} (ample : m.Ample n) (fewer : k ≤ n) : m.Ample k :=
  ⟨fewer.trans ample.1, fun i below => ample.2 i (below.trans_le fewer)⟩

theorem Mem.Ample.take {f : Nat} {rest : List Nat} (ample : m.Ample (n + 1)) (frees : m.free = f :: rest) :
    (m.take rest).Ample n := by
  obtain ⟨pages, granted⟩ := ample
  rw [frees, List.length_cons] at pages
  exact ⟨Nat.le_of_succ_le_succ pages, fun i below => granted (i + 1) (Nat.succ_lt_succ below)⟩

theorem Stocked.ample (stocked : Stocked d T n m) : m.Ample n := stocked.mono (Nat.le_add_left ..)

/-- From `m` to `m'` every call of `kalloc` has returned a page: `n` pages, and page tables that
were lacking in `T`. -/
structure Paid (d : Nat) (T : Finset Nat) (n : Nat) (m m' : Mem) : Prop where
  missed : m'.missed = m.missed
  stock : ∀ k, Stocked d T (n + k) m → Stocked d T k m'

/-- From `m` to `m'` a call of `kalloc` has returned 0, as there were not `n` pages beside the page
tables that are lacking in `T`. -/
structure Unpaid (d : Nat) (T : Finset Nat) (n : Nat) (m m' : Mem) : Prop where
  missed : m.missed < m'.missed
  stock : ¬Stocked d T n m

namespace Paid

/-- No page has been taken. -/
theorem same (table : (m'.space d).table = (m.space d).table) (free : m'.free = m.free) (grant : m'.grant = m.grant)
    (missed : m'.missed = m.missed) : Paid d T 0 m m' := by
  refine ⟨missed, fun k stocked => ?_⟩
  rw [Stocked, Mem.lacking, Mem.Ample, table, free, grant]
  rwa [Nat.zero_add] at stocked

theorem trans {n' : Nat} (first : Paid d T n m m') (second : Paid d T n' m' m'') : Paid d T (n + n') m m'' := by
  refine ⟨second.missed.trans first.missed, fun k stocked => second.stock k (first.stock _ ?_)⟩
  rwa [← Nat.add_assoc]

theorem mono {n' : Nat} (paid : Paid d T n m m') (more : n ≤ n') : Paid d T n' m m' := by
  refine ⟨paid.missed, fun k stocked => paid.stock k (stocked.mono ?_)⟩
  omega

theorem unpaid {n' : Nat} (paid : Paid d T n m m') (refused : Unpaid d T n' m' m'') : Unpaid d T (n + n') m m'' :=
  ⟨paid.missed ▸ refused.missed, fun stocked => refused.stock (paid.stock n' stocked)⟩

/-- A page has been taken for something else than a page table. -/
theorem page {f : Nat} {rest : List Nat} (frees : m.free = f :: rest) (p : Page)
    (space : ((m.take rest).setPage f p).space d = m.space d) : Paid d T 1 m ((m.take rest).setPage f p) := by
  refine ⟨rfl, fun k stocked => ?_⟩
  rw [Stocked, Mem.lacking, space]
  have more : (m.lacking d T).card + (1 + k) = (m.lacking d T).card + k + 1 := by omega
  rw [Stocked, more] at stocked
  exact stocked.take frees

/-- A page has become the page table of entry `i`. -/
theorem table {f i : Nat} {rest : List Nat} (needed : i ∈ T) (missing : (m.space d).table i = none)
    (frees : m.free = f :: rest) (linked : (m'.space d).table = update (m.space d).table i (some f))
    (free : m'.free = rest) (grant : m'.grant = (m.take rest).grant) (missed : m'.missed = m.missed) :
    Paid d T 0 m m' := by
  have fewer : m'.lacking d T = (m.lacking d T).erase i := by
    ext j
    rw [Mem.lacking, Mem.lacking, linked, Finset.mem_erase, Finset.mem_filter, Finset.mem_filter]
    by_cases here : j = i
    · subst here
      simp
    · simp [here]
  have card : ((m.lacking d T).erase i).card + 1 = (m.lacking d T).card :=
    Finset.card_erase_add_one (Finset.mem_filter.2 ⟨needed, missing⟩)
  refine ⟨missed, fun k stocked => ?_⟩
  have more : (m.lacking d T).card + (0 + k) = ((m.lacking d T).erase i).card + k + 1 := by omega
  rw [Stocked, more] at stocked
  have after := stocked.take frees
  rw [Stocked, fewer, Mem.Ample, free, grant]
  exact after

end Paid

theorem Unpaid.mono {n' : Nat} (refused : Unpaid d T n m m') (more : n ≤ n') : Unpaid d T n' m m' :=
  ⟨refused.missed, fun stocked => refused.stock (Mem.Ample.mono stocked (Nat.add_le_add_left more _))⟩

theorem Unpaid.after (refused : Unpaid d T n m m') (missed : m''.missed = m'.missed) : Unpaid d T n m m'' :=
  ⟨missed ▸ refused.missed, refused.stock⟩

/-- `kalloc` has returned 0 for a page. -/
theorem Unpaid.page (refused : ¬m.Ample 1) : Unpaid d T 1 m m.refuse :=
  ⟨Nat.lt_succ_self _, fun stocked => refused stocked.ample⟩

/-- `kalloc` has returned 0 for the page table of entry `i`. -/
theorem Unpaid.table {i : Nat} (needed : i ∈ T) (missing : (m.space d).table i = none) (refused : ¬m.Ample 1) :
    Unpaid d T 0 m m.refuse := by
  have one : 0 < (m.lacking d T).card := Finset.card_pos.2 ⟨i, Finset.mem_filter.2 ⟨needed, missing⟩⟩
  exact ⟨Nat.lt_succ_self _, fun stocked => refused (Mem.Ample.mono stocked one)⟩

end MiniOS.Vm
