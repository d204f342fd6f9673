import MiniOS.Vm.Alloc
import MiniOS.Vm.Free

namespace MiniOS.Vm

open Lib

namespace Kmap

/-- The size that `setupkvm` passes for an entry of `kmap`, in pages. -/
def pages (k : Kmap) : Nat := (k.physEnd + (2 ^ 32 - k.physStart)) % 2 ^ 32 / 4096

/-- The entry is mapped. -/
def add (pte : Nat → BitVec 32) (k : Kmap) : Nat → BitVec 32 :=
  mapped pte (k.virt / 4096) (k.physStart / 4096) k.pages k.perm

/-- The entry is above the user pages, and none of its pages is present. -/
structure Fits (k : Kmap) (pte : Nat → BitVec 32) : Prop where
  positive : 0 < k.pages
  virt : k.virt % 4096 = 0
  phys : k.physStart % 4096 = 0
  size : (k.physEnd + (2 ^ 32 - k.physStart)) % 2 ^ 32 = 4096 * k.pages
  high : 2 ^ 19 ≤ k.virt / 4096
  bound : k.virt / 4096 + k.pages ≤ 2 ^ 20
  room : k.physStart / 4096 + k.pages ≤ 2 ^ 20
  absent : ∀ v, k.virt / 4096 ≤ v → v < k.virt / 4096 + k.pages → ¬Present (pte v)

/-- The entries fit one after the other. -/
def FitAll (pte : Nat → BitVec 32) : List Kmap → Prop
  | [] => True
  | k :: rest => k.Fits pte ∧ FitAll (add pte k) rest

end Kmap

section Kernel

variable [KernelImage] {m : Mem} {others : Set Nat} {d : Nat} {T : Finset Nat}

/-- The entries of the kernel half. -/
def kernelPte : Nat → BitVec 32 := kmap.foldl Kmap.add fun _ => 0

theorem data_bounds : 256 < KernelImage.data ∧ KernelImage.data ≤ 1024 :=
  ⟨KernelImage.text, KernelImage.order.trans KernelImage.low⟩

/-- The first pages and the lengths of the entries of `kmap`. -/
theorem kmap_pages :
    (kernbase / 4096 = 0x80000 ∧ (⟨kernbase, 0, extmem, pteW⟩ : Kmap).pages = 0x100) ∧
    ((kernbase + extmem) / 4096 = 0x80100 ∧ extmem / 4096 = 0x100 ∧
      (⟨kernbase + extmem, extmem, 4096 * KernelImage.data, 0⟩ : Kmap).pages = KernelImage.data - 0x100) ∧
    ((kernbase + 4096 * KernelImage.data) / 4096 = 0x80000 + KernelImage.data ∧
      (⟨kernbase + 4096 * KernelImage.data, 4096 * KernelImage.data, phystop, pteW⟩ : Kmap).pages =
      0xE000 - KernelImage.data) ∧
    devspace / 4096 = 0xFE000 ∧ (⟨devspace, devspace, 0, pteW⟩ : Kmap).pages = 0x2000 := by
  have image := data_bounds
  refine ⟨by decide, ⟨by decide, by decide, ?_⟩, ⟨?_, ?_⟩, by decide⟩
  · simp only [Kmap.pages, extmem]
    omega
  · simp only [kernbase]
    omega
  · simp only [Kmap.pages, phystop]
    omega

/-- The four parts of the kernel half: the low memory and the data can be written, the text
cannot, and the devices are mapped to themselves. -/
theorem kernelPte_eq (v : Nat) : kernelPte v =
    if 0xFE000 ≤ v ∧ v < 0x100000 then pteFor v pteW
    else if 0x80000 + KernelImage.data ≤ v ∧ v < 0x8E000 then pteFor (v - 0x80000) pteW
    else if 0x80100 ≤ v ∧ v < 0x80000 + KernelImage.data then pteFor (v - 0x80000) 0
    else if 0x80000 ≤ v ∧ v < 0x80100 then pteFor (v - 0x80000) pteW else 0 := by
  have image := data_bounds
  obtain ⟨⟨base, first⟩, ⟨code, ext, second⟩, ⟨data, third⟩, devices, fourth⟩ := kmap_pages
  simp only [kernelPte, kmap, List.foldl_cons, List.foldl_nil, Kmap.add, first, second, third, fourth, base,
    code, data, devices, ext,
    Nat.mul_div_cancel_left _ (by decide : 0 < 4096)]
  by_cases inDevices : 0xFE000 ≤ v ∧ v < 0x100000
  · rw [if_pos inDevices]
    exact mapped_of_mem inDevices.1 inDevices.2 (by omega)
  rw [if_neg inDevices, mapped_of_not (by omega)]
  by_cases inData : 0x80000 + KernelImage.data ≤ v ∧ v < 0x8E000
  · rw [if_pos inData]
    exact mapped_of_mem inData.1 (by omega) (by omega)
  rw [if_neg inData, mapped_of_not (by omega)]
  by_cases inText : 0x80100 ≤ v ∧ v < 0x80000 + KernelImage.data
  · rw [if_pos inText]
    exact mapped_of_mem inText.1 (by omega) (by omega)
  rw [if_neg inText, mapped_of_not (by omega)]
  by_cases inLow : 0x80000 ≤ v ∧ v < 0x80100
  · rw [if_pos inLow]
    exact mapped_of_mem inLow.1 inLow.2 (by omega)
  · rw [if_neg inLow, mapped_of_not (by omega)]

theorem kernelPte_low {v : Nat} (low : v < 2 ^ 19) : kernelPte v = 0 := by
  rw [kernelPte_eq, if_neg (by omega), if_neg (by omega), if_neg (by omega), if_neg (by omega)]

theorem kmap_fits : Kmap.FitAll (fun _ => 0) kmap := by
  have image := data_bounds
  obtain ⟨⟨base, first⟩, ⟨code, ext, second⟩, ⟨data, third⟩, devices, fourth⟩ := kmap_pages
  refine ⟨⟨?_, by decide, by decide, ?_, ?_, ?_, ?_, fun _ _ _ => not_present_zero⟩, ⟨?_, ?_, ?_, ?_, ?_, ?_, ?_, ?_⟩,
    ⟨?_, ?_, ?_, ?_, ?_, ?_, ?_, ?_⟩, ⟨?_, by decide, by decide, ?_, ?_, ?_, ?_, ?_⟩, trivial⟩
  all_goals simp only [Kmap.add, first, second, third, fourth, base, code, data, ext, devices]
  · decide
  · decide
  · decide
  · decide
  · decide
  · omega
  · decide
  · decide
  · simp only [extmem]
    omega
  · decide
  · omega
  · omega
  · intro v above below
    rw [mapped_of_not (by omega)]
    exact not_present_zero
  · omega
  · simp only [kernbase]
    omega
  · omega
  · simp only [phystop]
    omega
  · omega
  · omega
  · omega
  · intro v above below
    rw [mapped_of_not (by omega), mapped_of_not (by omega)]
    exact not_present_zero
  · decide
  · decide
  · decide
  · decide
  · decide
  · intro v above below
    rw [mapped_of_not (by omega), mapped_of_not (by omega), mapped_of_not (by omega)]
    exact not_present_zero

/-- The page tables that the entries need. -/
def Kmap.Tables (ks : List Kmap) (i : Nat) : Prop := ∃ k ∈ ks, ∃ v, k.virt / 4096 ≤ v ∧ v < k.virt / 4096 + k.pages ∧
    v / 1024 = i

/-- One entry of `kmap` is mapped. -/
theorem mapKmap_spec {k : Kmap} (holds : Holds m others d) (fits : k.Fits (m.space d).pte)
    (needed : ∀ i, Kmap.Tables [k] i → i ∈ T) :
    wp (mappages d k.virt ((k.physEnd + (2 ^ 32 - k.physStart)) % 2 ^ 32) k.physStart k.perm) m
      (fun r m' => Holds m' others d ∧ Adds d (Kmap.Tables [k]) m m' ∧
        ((r = 0 ∧ (m'.space d).pte = Kmap.add (m.space d).pte k ∧ Paid d T 0 m m') ∨ (r = -1 ∧ Unpaid d T 0 m m')))
      fun _ => False := by
  obtain ⟨positive, virt, phys, size, high, bound, room, absent⟩ := fits
  have last : (k.virt + 4096 * k.pages - 1) / 4096 = k.virt / 4096 + k.pages - 1 := by omega
  have frame : k.physStart = 4096 * (k.physStart / 4096) := by omega
  have count : k.virt / 4096 + k.pages - 1 - k.virt / 4096 + 1 = k.pages := by omega
  have pages : 4096 * (k.physStart / 4096) + 4096 * ((k.virt + 4096 * k.pages - 1) / 4096 - k.virt / 4096 + 1) ≤
      2 ^ 32 := by
    rw [last, count]
    omega
  have range : ∀ v, k.virt / 4096 ≤ v → v ≤ (k.virt + 4096 * k.pages - 1) / 4096 →
      ¬Present ((m.space d).pte v) ∧ v / 1024 ∈ T := by
    intro v above below
    exact ⟨absent v above (by omega), needed _ ⟨k, List.mem_singleton_self k, v, above, by omega, rfl⟩⟩
  have spec := mappages_spec holds.dir k.virt (4096 * k.pages) (k.physStart / 4096) k.perm
    (by omega) (by omega) pages range
  rw [last, count, ← frame] at spec
  rw [size]
  refine wp_mono spec ?_ fun _ => id
  rintro r m' ⟨n, new, mapping, ends⟩
  refine ⟨holds.grow mapping.grown ?_, Extends.adds (mapping.grown.mono ?_), ?_⟩
  · funext v
    by_cases low : v < 2 ^ 19
    · refine Space.user_congr ?_
      rw [mapping.pte, mapped_of_not (by omega)]
    · rw [Space.user_of_high (Nat.not_lt.1 low), Space.user_of_high (Nat.not_lt.1 low)]
  · intro i needed
    exact ⟨k, List.mem_singleton_self k, needed⟩
  · rcases ends with ⟨rfl, rfl, paid⟩ | ⟨rfl, _, refused⟩
    · exact .inl ⟨rfl, mapping.pte, paid⟩
    · exact .inr ⟨rfl, refused⟩

theorem mapKernel_spec : ∀ (ks : List Kmap) (m : Mem), Holds m others d → Kmap.FitAll (m.space d).pte ks →
    (∀ i, Kmap.Tables ks i → i ∈ T) →
    wp (mapKernel d ks) m
      (fun r m' => Holds m' others d ∧ Adds d (Kmap.Tables ks) m m' ∧
        ((r = true ∧ (m'.space d).pte = ks.foldl Kmap.add (m.space d).pte ∧ Paid d T 0 m m') ∨
          (r = false ∧ Unpaid d T 0 m m')))
      fun _ => False := by
  intro ks
  induction ks with
  | nil => exact fun m holds _ _ => ⟨holds, .refl d _ m, .inl ⟨rfl, rfl, .same rfl rfl rfl rfl⟩⟩
  | cons k ks ih =>
    rintro m holds ⟨fits, rest⟩ needed
    have first : ∀ i, Kmap.Tables [k] i → Kmap.Tables (k :: ks) i := by
      rintro i ⟨k', member, needed⟩
      rw [List.mem_singleton] at member
      exact ⟨k', List.mem_cons.2 (.inl member), needed⟩
    have later : ∀ i, Kmap.Tables ks i → Kmap.Tables (k :: ks) i := by
      rintro i ⟨k', member, needed⟩
      exact ⟨k', .tail k member, needed⟩
    unfold mapKernel
    refine wp_seq (mapKmap_spec holds fits fun i table => needed i (first i table)) ?_
    rintro r m₁ ⟨holds₁, adds₁, ends⟩
    rcases ends with ⟨rfl, pte, paid⟩ | ⟨rfl, refused⟩
    · rw [if_neg (by decide)]
      refine wp_mono (ih m₁ holds₁ (pte ▸ rest) fun i table => needed i (later i table)) ?_ fun _ => id
      rintro r m' ⟨holds', adds', ends⟩
      refine ⟨holds', (adds₁.mono first).trans (adds'.mono later), ?_⟩
      rcases ends with ⟨rfl, pte', more⟩ | ⟨rfl, refused⟩
      · exact .inl ⟨rfl, pte'.trans (pte ▸ rfl), paid.trans more⟩
      · exact .inr ⟨rfl, paid.unpaid refused⟩
    · rw [if_pos (by decide)]
      exact ⟨holds₁, adds₁.mono first, .inr ⟨rfl, refused⟩⟩

/-- The indices of the page tables of the kernel half. -/
def KernelTable (i : Nat) : Prop := (512 ≤ i ∧ i < 568) ∨ (1016 ≤ i ∧ i < 1024)

omit [KernelImage] in
theorem kernelTable_lt {i : Nat} (kernel : KernelTable i) : i ∈ Finset.range 1024 := by
  rw [KernelTable] at kernel
  exact Finset.mem_range.2 (by omega)

theorem kmap_tables (i : Nat) : Kmap.Tables kmap i → KernelTable i := by
  have image := data_bounds
  obtain ⟨⟨base, first⟩, ⟨code, ext, second⟩, ⟨data, third⟩, devices, fourth⟩ := kmap_pages
  rintro ⟨k, member, v, above, below, rfl⟩
  rw [KernelTable]
  simp only [kmap, List.mem_cons, List.not_mem_nil, or_false] at member
  rcases member with rfl | rfl | rfl | rfl
  · rw [base] at above below
    rw [first] at below
    omega
  · rw [code] at above below
    rw [second] at below
    omega
  · rw [data] at above below
    rw [third] at below
    omega
  · rw [devices] at above below
    rw [fourth] at below
    omega

theorem present_kernelPte {i : Nat} (kernel : KernelTable i) : Present (kernelPte (1024 * i)) := by
  have image := data_bounds
  rw [KernelTable] at kernel
  rw [kernelPte_eq]
  split
  · exact present_pteFor _ _
  split
  · exact present_pteFor _ _
  split
  · exact present_pteFor _ _
  split
  · exact present_pteFor _ _
  · omega

/-- What `setupkvm` builds: a directory with the kernel half and no user pages. -/
structure KernelOnly (sp : Space) : Prop where
  pte : sp.pte = kernelPte
  table : ∀ i, sp.table i ≠ none ↔ KernelTable i

/-- `setupkvm` makes a directory of free pages, or frees again what it took. For an empty directory
all page tables in `T` are lacking. -/
theorem setupkvm_spec (before : Parts pool m.free others ∅) (needed : ∀ i, KernelTable i → i ∈ T) :
    wp setupkvm m
      (fun r m' => (∀ f, f ∉ m.free → m'.page f = m.page f) ∧
        ((r = none ∧ Parts pool m'.free others ∅ ∧ m.missed < m'.missed ∧ ¬m.Ample (1 + T.card)) ∨
          ∃ d, r = some d ∧ d ∈ m.free ∧ Holds m' others d ∧ KernelOnly (m'.space d) ∧ m'.missed = m.missed ∧
            ∀ k, m.Ample (1 + (T.card + k)) → Stocked d T k m'))
      fun _ => False := by
  unfold setupkvm
  refine wp_seq (kalloc_spec m) ?_
  rintro r m₁ (⟨rfl, rfl, none⟩ | ⟨d, rest, rfl, frees, rfl⟩)
  · exact ⟨fun _ _ => rfl, .inl ⟨rfl, before, Nat.lt_succ_self _,
      fun ample => none (ample.mono (Nat.le_add_right ..))⟩⟩
  have member : d ∈ m.free := by
    rw [frees]
    exact .head _
  have parts := before
  rw [frees] at parts
  have handed := parts.take.own (parts.freeOthers d (.head _))
  rw [insert_empty_eq] at handed
  refine wp_modify_seq ?_
  let m₁ := (m.take rest).setPage d fun _ => 0
  have zero : m₁.page d = fun _ => 0 := Function.update_self ..
  have holds₁ : Holds m₁ others d := Holds.of_zero zero handed
  have space := space_zero zero
  have stocked : ∀ k, m.Ample (1 + (T.card + k)) → Stocked d T k m₁ := by
    intro k ample
    rw [Nat.add_comm] at ample
    exact (ample.take frees).mono (Nat.add_le_add_right (Finset.card_filter_le ..) k)
  have pages₁ : ∀ f, f ∉ m.free → m₁.page f = m.page f ∧ f ∉ m₁.free ∧ f ∉ holdings ((m₁.space d).tree d) := by
    intro f outside
    have other : f ≠ d := by
      rintro rfl
      exact outside member
    refine ⟨Function.update_of_ne other .., fun left => outside ?_, ?_⟩
    · rw [frees]
      exact .tail d left
    · rintro ⟨_ | i, held⟩
      · exact other (Option.some.inj held).symm
      · rw [space] at held
        cases held
  rw [if_neg (by decide)]
  refine wp_seq (mapKernel_spec kmap m₁ holds₁ (space ▸ kmap_fits) fun i table => needed i (kmap_tables i table)) ?_
  rintro r m₂ ⟨holds₂, adds, ends⟩
  have pages₂ : ∀ f, f ∉ m.free → m₂.page f = m.page f := by
    intro f outside
    obtain ⟨same, notFree, notTree⟩ := pages₁ f outside
    rw [adds.pages f notFree notTree, same]
  rcases ends with ⟨rfl, pte, paid⟩ | ⟨rfl, refused⟩
  · rw [if_pos rfl]
    rw [space] at pte
    refine ⟨pages₂, .inr ⟨d, rfl, member, holds₂, ⟨pte, fun i => ⟨fun present => ?_, fun kernel missing => ?_⟩⟩,
      paid.missed,
      fun k ample => paid.stock k (by rw [Nat.zero_add]; exact stocked k ample)⟩⟩
    · by_contra other
      rw [adds.same i fun needed => other (kmap_tables i needed), space] at present
      exact present rfl
    · have present := present_kernelPte kernel
      have absent : (m₂.space d).pte (1024 * i) = 0 := pte_none (by rwa [Nat.mul_div_cancel_left i (by decide)])
      rw [pte] at absent
      exact not_present_zero (absent ▸ present)
  · rw [if_neg (by decide)]
    refine wp_seq (freevm_spec holds₂) ?_
    rintro _ m₃ ⟨parts₃, pages₃, missed₃⟩
    refine ⟨fun f outside => ?_, .inl ⟨rfl, parts₃, missed₃ ▸ refused.missed,
      fun ample => refused.stock (stocked 0 ample)⟩⟩
    rw [pages₃ f fun mine => outside (before.owned_was_free holds₂.parts mine), pages₂ f outside]

end Kernel

end MiniOS.Vm
