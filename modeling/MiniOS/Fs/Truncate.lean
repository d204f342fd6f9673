import MiniOS.Fs.ReadWrite

namespace MiniOS

open Lib Function

/-- Inode `i` has been freed with its blocks, and nothing else has changed. -/
structure Erases (sb : Superblock) (block : Nat → Block) (i : Nat) (block' : Nat → Block) : Prop where
  image : Image sb block' (dinodeOf sb block')
  type : (dinodeOf sb block' i).type = 0
  inodes : ∀ j < sb.ninodes, j ≠ i → dinodeOf sb block' j = dinodeOf sb block j
  others : ∀ j < sb.ninodes, j ≠ i → (dinodeOf sb block j).type ≠ 0 → ∀ n,
    byteAt block' (dinodeOf sb block j) n = byteAt block (dinodeOf sb block j) n
  spare : spare (inUse sb block) sb.size + blocksFor (((dinodeOf sb block i).size.toNat + 511) / 512) ≤
    spare (inUse sb block') sb.size

/-- The owners without some slots of inode `i`. -/
def cutSlots (own : Nat × Slot → Option Nat) (i : Nat) (gone : List Slot) (x : Nat × Slot) : Option Nat :=
  if x.1 = i ∧ x.2 ∈ gone then none else own x

/-- `itrunc` has freed the blocks in the given slots of inode `i`, which are `n`
blocks. Only the free map has changed. -/
structure SlotsFreed (sb : Superblock) (block : Nat → Block) (own : Nat × Slot → Option Nat)
    (i : Nat) (block' : Nat → Block) (gone : List Slot) (n : Nat) : Prop where
  owns : Owns (cutSlots own i gone) (inUse sb block') sb.dataStart sb.size
  same : ∀ c, c ≠ sb.bmapstart → block' c = block c
  count : spare (inUse sb block') sb.size = spare (inUse sb block) sb.size + n

section SlotsFreed

variable {sb : Superblock} {block block' block'' : Nat → Block} {own : Nat × Slot → Option Nat}
  {i b n : Nat} {gone : List Slot} {x : Slot}

theorem cutSlots_of_notMem (keep : x ∉ gone) : cutSlots own i gone (i, x) = own (i, x) :=
  if_neg fun here => keep here.2

theorem SlotsFreed.skip (freed : SlotsFreed sb block own i block' gone n) (empty : own (i, x) = none) :
    SlotsFreed sb block own i block' (x :: gone) n := by
  refine ⟨freed.owns.congr (fun ⟨j, y⟩ => ?_) fun _ _ => rfl, freed.same, freed.count⟩
  simp only [cutSlots, List.mem_cons]
  by_cases here : j = i ∧ y = x
  · rw [if_pos ⟨here.1, .inl here.2⟩, here.1, here.2, empty, ite_self]
  · refine if_congr ⟨fun mem => ⟨mem.1, mem.2.resolve_left fun same => here ⟨mem.1, same⟩⟩,
      fun mem => ⟨mem.1, .inr mem.2⟩⟩
      rfl rfl

theorem SlotsFreed.free (freed : SlotsFreed sb block own i block' gone n) (keep : x ∉ gone)
    (held : own (i, x) = some b) (releases : BlockFreed sb block' block'' b) :
    SlotsFreed sb block own i block'' (x :: gone) (n + 1) := by
  have mine : cutSlots own i gone (i, x) = some b := (cutSlots_of_notMem keep).trans held
  have inside := (freed.owns.range mine).2
  refine ⟨freed.owns.release mine (if_pos ⟨rfl, .head _⟩) (fun ⟨j, y⟩ other => ?_) releases.cleared releases.others,
    fun c away => (releases.same c away).trans (freed.same c away), ?_⟩
  · simp only [cutSlots, List.mem_cons]
    refine if_congr ⟨fun mem => ⟨mem.1, mem.2.resolve_left fun same => other ?_⟩,
      fun mem => ⟨mem.1, .inr mem.2⟩⟩ rfl rfl
    rw [mem.1, same]
  · have count := spare_mark inside releases.cleared (freed.owns.used_of_own mine) fun c bound other =>
      (releases.others c bound other).symm
    rw [← count, freed.count, Nat.add_assoc]

end SlotsFreed

section Code

variable {s : Fs} {k : Fin ninode} {own : Nat × Slot → Option Nat} {i n : Nat}
  {gone : List Slot} {block₀ : Nat → Block} {err : Stop → Prop} {dev m : Nat} {d : Dinode} {block : Nat → Block}

theorem bfree_slot {b : Nat} {x : Slot} (freed : SlotsFreed s.sb block₀ own i s.block gone n)
    (laid : s.sb.Laid) (keep : x ∉ gone) (held : own (i, x) = some b) :
    wp (bfree dev b) s (fun _ t => ∃ block, t = { s with block := block } ∧
      SlotsFreed s.sb block₀ own i block (x :: gone) (n + 1)) err := by
  have mine : cutSlots own i gone (i, x) = some b := (cutSlots_of_notMem keep).trans held
  refine wp_mono (bfree_spec laid (freed.owns.range mine).2 (freed.owns.used_of_own mine)) ?_ fun _ => id
  rintro _ _ ⟨block, releases, rfl⟩
  exact ⟨block, rfl, freed.free keep held releases⟩

/-- The addresses with some of them cleared. -/
def clearAddrs (d : Dinode) (as : List (Fin 13)) : Dinode :=
  { d with addrs := fun a => if a ∈ as then 0 else d.addrs a }

theorem clearAddrs_cons (d : Dinode) (a : Fin 13) (as : List (Fin 13)) :
    clearAddrs { d with addrs := update d.addrs a 0 } as = clearAddrs d (a :: as) := by
  simp only [clearAddrs, Dinode.mk.injEq, true_and]
  funext a'
  by_cases here : a' = a
  · simp [here]
  · simp [here]

theorem itruncDirect_spec {as : List (Fin 13)} (freed : SlotsFreed s.sb block₀ own i s.block gone n)
    (laid : s.sb.Laid) (cached : (s.icache k).d = d) (distinct : as.Nodup) (keep : ∀ a ∈ as, Slot.addr a ∉ gone)
    (held : ∀ a ∈ as, own (i, .addr a) = if d.addrs a = 0 then none else some (d.addrs a).toNat) :
    wp (itruncDirect k as) s (fun _ t => ∃ block, t = s.stored k block (clearAddrs d as) ∧
      SlotsFreed s.sb block₀ own i block ((as.map Slot.addr).reverse ++ gone)
      (n + as.countP (fun a => (own (i, .addr a)).isSome))) err := by
  induction as generalizing s d gone n with
  | nil =>
    refine ⟨s.block, ?_, freed⟩
    rw [← cached]
    exact (Fs.stored_self s k).symm
  | cons a rest ih =>
    have mine := held a (.head _)
    have fresh := keep a (.head _)
    obtain ⟨absent, distinct⟩ := List.nodup_cons.1 distinct
    have keep' : ∀ a' ∈ rest, Slot.addr a' ∉ Slot.addr a :: gone := by
      intro a' mem
      rw [List.mem_cons, not_or]
      refine ⟨fun same => absent ?_, keep a' (.tail _ mem)⟩
      cases same
      exact mem
    have order : ((a :: rest).map Slot.addr).reverse ++ gone =
        (rest.map Slot.addr).reverse ++ (Slot.addr a :: gone) := by
      rw [List.map_cons, List.reverse_cons, List.append_assoc, List.singleton_append]
    rw [order]
    refine wp_inode k ?_
    rw [cached]
    by_cases zero : d.addrs a = 0
    · rw [if_pos zero]
      rw [if_pos zero] at mine
      refine wp_mono (ih (freed.skip mine) laid cached distinct keep' fun a' mem => held a' (.tail _ mem)) ?_
        fun _ => id
      rintro _ _ ⟨block, rfl, freed⟩
      refine ⟨block, ?_, ?_⟩
      · rw [← clearAddrs_cons, ← zero, update_eq_self]
      · rwa [List.countP_cons_of_neg (by rw [mine]; exact nofun)]
    · rw [if_neg zero]
      rw [if_neg zero] at mine
      refine wp_seq (bfree_slot freed laid fresh mine) ?_
      rintro _ _ ⟨block, rfl, freed⟩
      refine wp_modify_seq
        (wp_mono (ih (d := { d with addrs := update d.addrs a 0 }) freed laid ?_ distinct keep' fun a' mem => ?_)
        ?_ fun _ => id)
      · simp only [Fs.setInode, update_self, cached]
      · have other : a' ≠ a := fun same => absent (same ▸ mem)
        simp only [update_of_ne other]
        exact held a' (.tail _ mem)
      · rintro _ _ ⟨block', rfl, freed⟩
        refine ⟨block', ?_, ?_⟩
        · simp only [Fs.stored, Fs.setInode, update_self, update_idem, clearAddrs_cons]
        · rw [List.countP_cons_of_pos (by rw [mine]; rfl), Nat.add_comm (List.countP _ _) 1, ← Nat.add_assoc]
          exact freed

theorem itruncEntries_spec {a : Block} {js : List Nat} (freed : SlotsFreed s.sb block₀ own i s.block gone n)
    (laid : s.sb.Laid) (distinct : js.Nodup) (keep : ∀ j (bound : j < 128), j ∈ js → Slot.entry ⟨j, bound⟩ ∉ gone)
    (small : ∀ j ∈ js, j < 128)
    (held : ∀ j : Fin 128, own (i, .entry j) = if load32 a (4 * j) = 0 then none else some (load32 a (4 * j)).toNat) :
    wp (itruncEntries dev a js) s (fun _ t => ∃ block gone', t = { s with block := block } ∧
      SlotsFreed s.sb block₀ own i block gone' (n + js.countP (fun j => decide (load32 a (4 * j) ≠ 0))) ∧
      ∀ x, x ∈ gone' ↔ x ∈ gone ∨ ∃ j : Fin 128, (j : Nat) ∈ js ∧ x = .entry j) err := by
  induction js generalizing s gone n with
  | nil =>
    refine ⟨s.block, gone, rfl, freed, fun x => ⟨.inl, fun mem => mem.resolve_right ?_⟩⟩
    rintro ⟨j, none, -⟩
    cases none
  | cons j rest ih =>
    have bound := small j (.head _)
    have mine := held ⟨j, bound⟩
    have fresh := keep j bound (.head _)
    obtain ⟨absent, distinct⟩ := List.nodup_cons.1 distinct
    have keep' : ∀ j' (bound' : j' < 128), j' ∈ rest → Slot.entry ⟨j', bound'⟩ ∉ Slot.entry ⟨j, bound⟩ :: gone := by
      intro j' bound' mem
      rw [List.mem_cons, not_or]
      refine ⟨fun same => absent ?_, keep j' bound' (.tail _ mem)⟩
      cases same
      exact mem
    have members : ∀ {gone' : List Slot}, (∀ x, x ∈ gone' ↔ x ∈ Slot.entry ⟨j, bound⟩ :: gone ∨
      ∃ j' : Fin 128, (j' : Nat) ∈ rest ∧ x = .entry j') →
        ∀ x, x ∈ gone' ↔ x ∈ gone ∨ ∃ j' : Fin 128, (j' : Nat) ∈ j :: rest ∧ x = .entry j' := by
      intro gone' members x
      rw [members, List.mem_cons]
      constructor
      · rintro ((rfl | mem) | ⟨j', mem, rfl⟩)
        · exact .inr ⟨⟨j, bound⟩, .head _, rfl⟩
        · exact .inl mem
        · exact .inr ⟨j', .tail _ mem, rfl⟩
      · rintro (mem | ⟨j', mem, rfl⟩)
        · exact .inl (.inr mem)
        · rcases List.mem_cons.1 mem with same | mem
          · exact .inl (.inl (congrArg Slot.entry (Fin.ext same)))
          · exact .inr ⟨j', mem, rfl⟩
    rw [itruncEntries]
    by_cases zero : load32 a (4 * j) = 0
    · rw [if_pos zero]
      rw [if_pos zero] at mine
      refine wp_mono (ih (freed.skip mine) laid distinct keep' fun j' mem => small j' (.tail _ mem)) ?_ fun _ => id
      rintro _ _ ⟨block, gone', rfl, freed, mem⟩
      refine ⟨block, gone', rfl, ?_, members mem⟩
      rwa [List.countP_cons_of_neg (by simp [zero])]
    · rw [if_neg zero]
      rw [if_neg zero] at mine
      refine wp_seq (bfree_slot freed laid fresh mine) ?_
      rintro _ _ ⟨block, rfl, freed⟩
      refine wp_mono (ih freed laid distinct keep' fun j' mem => small j' (.tail _ mem)) ?_ fun _ => id
      rintro _ _ ⟨block', gone', rfl, freed, mem⟩
      refine ⟨block', gone', rfl, ?_, members mem⟩
      rw [List.countP_cons_of_pos (by simpa using zero), Nat.add_comm (List.countP _ _) 1, ← Nat.add_assoc]
      exact freed

/-- At least the first `m` of the indices are counted. -/
theorem le_countP_range {p : Nat → Bool} (first : ∀ j < m, p j = true) (n : Nat) :
    min m n ≤ (List.range n).countP p := by
  induction n with
  | zero => exact Nat.le_of_eq (Nat.min_zero m)
  | succ n ih =>
    rw [List.range_succ, List.countP_append]
    by_cases more : n < m
    · rw [List.countP_cons_of_pos (first n more), List.countP_nil]
      omega
    · omega

theorem le_countP_finRange {n : Nat} {p : Fin n → Bool} (first : ∀ a : Fin n, (a : Nat) < m → p a = true) :
    min m n ≤ (List.finRange n).countP p := by
  have below := le_countP_range (p := fun j => if bound : j < n then p ⟨j, bound⟩ else true)
      (m := m) (fun j less => by
    split
    · exact first _ less
    · rfl) n
  rw [← List.map_coe_finRange_eq_range, List.countP_map] at below
  refine Nat.le_trans below (Nat.le_of_eq (List.countP_congr fun a _ => ?_))
  simp

/-- The slots of a file that `itrunc` frees are at least those that its size covers. -/
theorem blocksFor_le_slots (mapped : ∀ bn < m, (fileBlock block d bn).isSome) :
    blocksFor m ≤ ((List.finRange 12).map Fin.castSucc).countP (fun a => (slotBlock block d (.addr a)).isSome) +
      if d.addrs 12 = 0 then 0
      else (List.range 128).countP (fun j => decide (load32 (block (d.addrs 12).toNat) (4 * j) ≠ 0)) + 1 := by
  have direct : min m 12 ≤ ((List.finRange 12).map Fin.castSucc).countP
      (fun a => (slotBlock block d (.addr a)).isSome) := by
    rw [List.countP_map]
    refine le_countP_finRange fun a less => ?_
    have here := mapped a less
    rw [fileBlock, slotOf, dif_pos a.isLt] at here
    exact here
  have bounded : m ≤ 140 := by
    by_contra above
    obtain ⟨b, here⟩ := Option.isSome_iff_exists.1 (mapped 140 (by omega))
    obtain ⟨x, slot, -⟩ := fileBlock_eq_some.1 here
    exact absurd (slotOf_isSome.1 (Option.isSome_iff_exists.2 ⟨x, slot⟩)) (by decide)
  by_cases indirect : d.addrs 12 = 0
  · have few : m ≤ 12 := by
      by_contra above
      exact indirect_of_fileBlock (Nat.le_refl 12) (mapped 12 (by omega)) indirect
    rw [if_pos indirect, blocksFor, if_neg (by omega)]
    omega
  · have entries : min (m - 12) 128 ≤
        (List.range 128).countP (fun j => decide (load32 (block (d.addrs 12).toNat) (4 * j) ≠ 0)) := by
      refine le_countP_range (fun j less => ?_) 128
      obtain ⟨b, here⟩ := Option.isSome_iff_exists.1 (mapped (12 + j) (by omega))
      obtain ⟨x, slot, held⟩ := fileBlock_eq_some.1 here
      rw [slotOf, dif_neg (by omega), dif_pos (by omega)] at slot
      cases slot
      have word := (slotBlock_eq_some.1 held).1
      simp only [slotWord] at word
      rw [if_neg indirect, Nat.add_sub_cancel_left] at word
      exact decide_eq_true word
    rw [if_neg indirect, blocksFor]
    split <;> omega

theorem itruncIndirect_spec (freed : SlotsFreed s.sb block₀ own i s.block gone n) (laid : s.sb.Laid)
    (cached : (s.icache k).d = d) (entries : ∀ j, Slot.entry j ∉ gone) (indirect : Slot.addr 12 ∉ gone)
    (table : own (i, .addr 12) = slotBlock block₀ d (.addr 12))
    (held : ∀ j, own (i, .entry j) = slotBlock block₀ d (.entry j)) :
    wp (itruncIndirect k) s (fun _ t => ∃ block gone', t = s.stored k block (clearAddrs d [12]) ∧
      SlotsFreed s.sb block₀ own i block gone' (n + if d.addrs 12 = 0 then 0
        else (List.range 128).countP (fun j => decide (load32 (block₀ (d.addrs 12).toNat) (4 * j) ≠ 0)) + 1) ∧
      (∀ x ∈ gone, x ∈ gone') ∧ ∀ x, own (i, x) ≠ none → x ∈ gone' ∨ ∃ a : Fin 13, a ≠ 12 ∧ x = .addr a) err := by
  refine wp_inode k ?_
  rw [cached]
  have clear : ∀ zero : d.addrs 12 = 0, clearAddrs d [12] = d := by
    intro zero
    have := clearAddrs_cons d 12 []
    rw [← this, ← zero, update_eq_self]
    rfl
  by_cases zero : d.addrs 12 = 0
  · rw [if_pos zero, if_pos zero, clear zero]
    refine ⟨s.block, gone, ?_, freed, fun _ => id, fun x some => ?_⟩
    · rw [← cached]
      exact (Fs.stored_self s k).symm
    · cases x with
      | addr a =>
        refine .inr ⟨a, ?_, rfl⟩
        rintro rfl
        exact some (table.trans (slotBlock_eq_none.2 zero))
      | entry j =>
        have empty : slotWord block₀ d (.entry j) = 0 := if_pos zero
        exact absurd ((held j).trans (slotBlock_eq_none.2 empty)) some
  · have mine : own (i, .addr 12) = Option.some (d.addrs 12).toNat := table.trans (slotBlock_eq_some.2 ⟨zero, rfl⟩)
    have range := freed.owns.range ((cutSlots_of_notMem indirect).trans mine)
    have map := s.sb.bmapstart_lt
    rw [if_neg zero, if_neg zero]
    refine wp_bread (Nat.lt_of_lt_of_le range.2 laid.disk) ?_
    rw [freed.same _ (by omega)]
    refine wp_seq (itruncEntries_spec freed laid List.nodup_range (fun j bound _ => entries ⟨j, bound⟩)
      (fun j mem => List.mem_range.1 mem) fun j => ?_) ?_
    · rw [held, slotBlock, slotWord, if_neg zero]
    · rintro _ _ ⟨block, gone', rfl, freed, mem⟩
      have keep : Slot.addr 12 ∉ gone' := by
        rw [mem]
        rintro (old | ⟨j, -, same⟩)
        · exact indirect old
        · cases same
      refine wp_seq (bfree_slot freed laid keep mine) ?_
      rintro _ _ ⟨block', rfl, freed⟩
      refine ⟨block', _, ?_, freed, fun x old => .tail _ ((mem x).2 (.inl old)), fun x some => ?_⟩
      · rw [← clearAddrs_cons]
        simp only [Fs.stored, cached]
        rfl
      · cases x with
        | addr a =>
          by_cases last : a = 12
          · exact .inl (last ▸ List.mem_cons_self ..)
          · exact .inr ⟨a, last, rfl⟩
        | entry j =>
          exact .inl (.tail _ ((mem _).2 (.inr ⟨j, List.mem_range.2 j.isLt, rfl⟩)))

/-- The inode that `itrunc` leaves. -/
def emptyDinode (d : Dinode) : Dinode := { d with size := 0, addrs := fun _ => 0 }

/-- `itrunc` frees all blocks of an inode. -/
theorem itrunc_spec (image : Image s.sb s.block (dinodeOf s.sb s.block)) (inside : (s.icache k).inum < s.sb.ninodes)
    (cached : (s.icache k).d = dinodeOf s.sb s.block (s.icache k).inum) (used : (s.icache k).d.type ≠ 0) :
    wp (itrunc k) s (fun _ t => ∃ block gone n,
      t = s.stored k (putInode s.sb block (s.icache k).inum (emptyDinode (s.icache k).d))
      (emptyDinode (s.icache k).d) ∧
      SlotsFreed s.sb s.block (owner s.sb s.block (dinodeOf s.sb s.block)) (s.icache k).inum block gone n ∧
      (∀ x, cutSlots (owner s.sb s.block (dinodeOf s.sb s.block)) (s.icache k).inum gone
        ((s.icache k).inum, x) = none) ∧
      blocksFor (((s.icache k).d.size.toNat + 511) / 512) ≤ n) err := by
  have laid := image.laid
  have held : ∀ x, owner s.sb s.block (dinodeOf s.sb s.block) ((s.icache k).inum, x) =
      slotBlock s.block (s.icache k).d x := by
    intro x
    rw [owner_of_allocated inside (cached ▸ used), cached]
  have start : SlotsFreed s.sb s.block (owner s.sb s.block (dinodeOf s.sb s.block)) (s.icache k).inum s.block [] 0 :=
    ⟨image.owns.congr (fun _ => if_neg fun here => nomatch here.2) fun _ _ => rfl, fun _ _ => rfl, rfl⟩
  have direct : ∀ a : Fin 13, a ∈ (List.finRange 12).map Fin.castSucc ↔ a ≠ 12 := by decide
  refine wp_seq (itruncDirect_spec start laid rfl (by decide) (fun _ _ => List.not_mem_nil) fun a _ =>
    held (.addr a)) ?_
  rintro _ _ ⟨block, rfl, freed⟩
  have last : (clearAddrs (s.icache k).d ((List.finRange 12).map Fin.castSucc)).addrs 12 =
      (s.icache k).d.addrs 12 := by
    simp only [clearAddrs]
    exact if_neg fun mem => (direct 12).1 mem rfl
  have indirect : Slot.addr 12 ∉ (((List.finRange 12).map Fin.castSucc).map Slot.addr).reverse ++ [] := by
    rw [List.append_nil, List.mem_reverse, List.mem_map]
    rintro ⟨a, mem, same⟩
    cases same
    exact (direct 12).1 mem rfl
  refine wp_seq (itruncIndirect_spec freed laid (by rw [Fs.stored_icache]) (fun j => by simp) indirect ?_
    fun j => ?_) ?_
  · exact (held _).trans (slotBlock_congr last.symm)
  · refine (held _).trans (slotBlock_congr ?_)
    simp only [slotWord, last]
  · rintro _ _ ⟨block', gone, rfl, freed', kept, all⟩
    rw [Fs.stored_stored]
    have emptied : (fun d : Dinode => { d with size := 0 })
      (clearAddrs (clearAddrs (s.icache k).d ((List.finRange 12).map Fin.castSucc)) [12]) =
        emptyDinode (s.icache k).d := by
      simp only [clearAddrs, emptyDinode, Dinode.mk.injEq, true_and, List.mem_singleton]
      funext a
      by_cases twelve : a = 12
      · rw [if_pos twelve]
      · rw [if_neg twelve, if_pos ((direct a).2 twelve)]
    refine wp_modify_seq (wp_mono (iupdate_spec laid ?_) ?_ fun _ => id)
    · simp only [Fs.setInode, update_self, Fs.stored]
      exact inside
    · rintro _ _ rfl
      refine ⟨block', gone, _, ?_, freed', fun x => ?_, ?_⟩
      · simp only [Fs.setInode, update_self, Fs.stored, update_idem, emptied]
      · by_cases empty : owner s.sb s.block (dinodeOf s.sb s.block) ((s.icache k).inum, x) = none
        · rw [cutSlots, empty, ite_self]
        · refine if_pos ⟨rfl, (all x empty).elim id ?_⟩
          rintro ⟨a, other, rfl⟩
          refine kept _ (List.mem_append_left _ (List.mem_reverse.2 (List.mem_map_of_mem ((direct a).2 other))))
      · have mapped : ∀ bn < ((s.icache k).d.size.toNat + 511) / 512,
            (fileBlock s.block (s.icache k).d bn).isSome := by
          intro bn less
          rw [cached] at less ⊢
          exact image.mapped _ inside (cached ▸ used) bn (by omega)
        have enough := blocksFor_le_slots mapped
        simp only [held, last, Nat.zero_add]
        exact enough

/-- An inode without blocks and type is no longer there. -/
theorem SlotsFreed.erases {sb : Superblock} {block' : Nat → Block} (image : Image sb block (dinodeOf sb block))
    (inside : i < sb.ninodes) (freed : SlotsFreed sb block (owner sb block (dinodeOf sb block)) i block' gone n)
    (all : ∀ x, cutSlots (owner sb block (dinodeOf sb block)) i gone (i, x) = none)
    (enough : blocksFor (((dinodeOf sb block i).size.toNat + 511) / 512) ≤ n) (d d' : Dinode) (type : d'.type = 0) :
    Erases sb block i (putInode sb (putInode sb block' i d) i d') := by
  have low := image.laid.iblock_lt inside
  have start := sb.bmapstart_lt
  have self : dinodeOf sb (putInode sb (putInode sb block' i d) i d') i = d' := by
    rw [dinodeOf_putInode, update_self]
  have same : ∀ c, sb.dataStart ≤ c → putInode sb (putInode sb block' i d) i d' c = block c := by
    intro c above
    rw [putInode_of_ne (by omega), putInode_of_ne (by omega), freed.same c (by omega)]
  have inodes : ∀ j < sb.ninodes, j ≠ i → dinodeOf sb (putInode sb (putInode sb block' i d) i d') j =
      dinodeOf sb block j := by
    intro j bound other
    rw [dinodeOf_putInode, update_of_ne other, dinodeOf_putInode, update_of_ne other,
      dinodeOf_congr image.laid bound fun c below => freed.same c (by omega)]
  have map : ∀ c < sb.size, inUse sb (putInode sb (putInode sb block' i d) i d') c = inUse sb block' c := by
    intro c bound
    refine inUse_congr image.laid ?_ bound
    rw [putInode_of_ne (by omega), putInode_of_ne (by omega)]
  have slots : ∀ {j}, j < sb.ninodes → (dinodeOf sb block j).type ≠ 0 → ∀ x,
      slotBlock (putInode sb (putInode sb block' i d) i d') (dinodeOf sb block j) x =
      slotBlock block (dinodeOf sb block j) x := by
    intro j bound used x
    refine slotBlock_congr_of_allocated bound used (fun c ⟨j', here⟩ z _ => ?_) x
    rw [same c (image.owns.range here).1]
  refine ⟨⟨image.laid, freed.owns.congr (fun ⟨j, x⟩ => ?_) map,
    fun j bound used bn covered => ?_⟩, by rw [self, type], inodes,
    fun j bound other used n => ?_, ?_⟩
  · by_cases here : j = i
    · subst here
      rw [all x, owner, if_neg fun both => both.2 (by rw [self, type])]
    · rw [cutSlots, if_neg fun both => here both.1]
      by_cases allocated : j < sb.ninodes ∧ (dinodeOf sb block j).type ≠ 0
      · rw [owner_of_allocated allocated.1 (by rw [inodes j allocated.1 here]; exact allocated.2),
          inodes j allocated.1 here,
          slots allocated.1 allocated.2, owner_of_allocated allocated.1 allocated.2]
      · rw [owner, owner, if_neg allocated, if_neg fun both =>
          allocated ⟨both.1, by rw [← inodes j both.1 here]; exact both.2⟩]
  · have other : j ≠ i := by
      rintro rfl
      exact used (by rw [self, type])
    rw [inodes j bound other] at used covered ⊢
    rw [fileBlock_congr (slots bound used)]
    exact image.mapped j bound used bn covered
  · refine byteAt_congr (fileBlock_congr (slots bound used) _) fun b here z _ => ?_
    obtain ⟨x, -, held⟩ := fileBlock_eq_some.1 here
    rw [same b (image.range bound used held).1]
  · rw [spare_congr map, freed.count]
    omega

/-- `iput` frees an inode with its blocks. -/
theorem ifree_spec (image : Image s.sb s.block (dinodeOf s.sb s.block)) (inside : (s.icache k).inum < s.sb.ninodes)
    (cached : (s.icache k).d = dinodeOf s.sb s.block (s.icache k).inum) (used : (s.icache k).d.type ≠ 0) :
    wp (ifree k) s (fun _ t => ∃ block d, Erases s.sb s.block (s.icache k).inum block ∧
      t = { s with block := block, icache := update s.icache k { s.icache k with valid := false, d := d } }) err := by
  refine wp_seq (itrunc_spec image inside cached used) ?_
  rintro _ _ ⟨block, gone, n, rfl, freed, all, enough⟩
  refine wp_modify_seq (wp_seq (iupdate_spec image.laid ?_) ?_)
  · simp only [Fs.setInode, update_self, Fs.stored]
    exact inside
  · rintro _ _ rfl
    refine ⟨_, { emptyDinode (s.icache k).d with type := 0 }, freed.erases image inside all (by rwa [← cached])
      (emptyDinode (s.icache k).d) { emptyDinode (s.icache k).d with type := 0 } rfl, ?_⟩
    simp only [Fs.setInode, update_self, Fs.stored, update_idem]

end Code

end MiniOS
