import MiniOS.Fs.Bmap

namespace MiniOS

open Lib Function

/-- The bytes `f` with `src` written over them at `off`. -/
def overlay (f : Nat → BitVec 8) (off : Nat) (src : Bytes) (n : Nat) : BitVec 8 :=
  if off ≤ n ∧ n < off + src.length then src.getD (n - off) 0 else f n

theorem overlay_nil (f : Nat → BitVec 8) (off : Nat) : overlay f off [] = f := by
  funext n
  exact if_neg (by simp only [List.length_nil]; omega)

/-- The bytes for one block are written first, and then the others. -/
theorem overlay_block {f g : Nat → BitVec 8} {off : Nat} {src : Bytes} (mem : Block)
    (same : ∀ n, n / 512 = off / 512 → mem (n % 512) = f n)
    (first : ∀ n, g n = if n / 512 = off / 512 then memmove mem (off % 512) (src.take (512 - off % 512))
      (n % 512) else f n) :
    overlay g (off + min src.length (512 - off % 512)) (src.drop (512 - off % 512)) = overlay f off src := by
  funext n
  have taken : (src.take (512 - off % 512)).length = min (512 - off % 512) src.length := List.length_take ..
  have dropped : (src.drop (512 - off % 512)).length = src.length - (512 - off % 512) := List.length_drop ..
  simp only [overlay]
  by_cases written : off ≤ n ∧ n < off + src.length
  · rw [if_pos written]
    by_cases near : n < off + (512 - off % 512)
    · have here : n / 512 = off / 512 := by omega
      rw [if_neg (by omega), first, if_pos here, memmove, if_pos (by omega),
        show n % 512 - off % 512 = n - off by omega]
      rw [List.getD_eq_getElem?_getD, List.getD_eq_getElem?_getD, List.getElem?_take_of_lt (by omega)]
    · rw [if_pos (by omega)]
      rw [List.getD_eq_getElem?_getD, List.getD_eq_getElem?_getD, List.getElem?_drop]
      congr 2
      omega
  · rw [if_neg written, if_neg (by omega), first]
    by_cases here : n / 512 = off / 512
    · rw [if_pos here, memmove, if_neg (by omega), same n here]
    · rw [if_neg here]

/-- The number of blocks that a file with `m` blocks of data has. -/
def blocksFor (m : Nat) : Nat := m + if 12 < m then 1 else 0

theorem blocksFor_mono {m m' : Nat} (le : m ≤ m') : blocksFor m ≤ blocksFor m' := by
  simp only [blocksFor]
  split <;> split <;> omega

section Code

variable {s : Fs} {k : Fin ninode} {inodes : Nat → Dinode} {i : Nat} {err : Stop → Prop}

theorem iupdate_spec (laid : s.sb.Laid) (inside : (s.icache k).inum < s.sb.ninodes) :
    wp (iupdate k) s
    (fun _ t => t = { s with block := putInode s.sb s.block (s.icache k).inum (s.icache k).d }) err := by
  have low := laid.iblock_lt inside
  have map := s.sb.bmapstart_lt
  refine wp_get_seq (wp_inode k (wp_bread ?_ rfl))
  exact Nat.lt_of_lt_of_le (Nat.lt_of_lt_of_le (Nat.lt_trans low map) laid.data) laid.disk

/-- `readi` copies the bytes of the file if it has all the blocks. -/
theorem readLoop_spec (image : Image s.sb s.block inodes) (cached : (s.icache k).d = inodes i)
    (inside : i < s.sb.ninodes) (used : (inodes i).type ≠ 0) {rounds off n : Nat} (enough : n ≤ rounds)
    (covered : ∀ bn, 512 * bn < off + n → off < 512 * (bn + 1) → (fileBlock s.block (inodes i) bn).isSome) :
    wp (readLoop k rounds off n) s
      (fun r t => r = (List.range n).map (fun j => byteAt s.block (inodes i) (off + j)) ∧ t = s) err := by
  induction rounds generalizing off n with
  | zero =>
    rw [Nat.le_zero.1 enough]
    exact ⟨rfl, rfl⟩
  | succ rounds ih =>
    rw [readLoop]
    refine wp_ite (fun zero => ⟨by rw [zero]; rfl, rfl⟩) fun some => ?_
    obtain ⟨b, here⟩ := Option.isSome_iff_exists.1 (covered (off / 512) (by omega) (by omega))
    obtain ⟨x, -, held⟩ := fileBlock_eq_some.1 here
    refine wp_seq (bmap_of_some image cached inside used here) ?_
    rintro _ _ ⟨rfl, rfl⟩
    refine wp_inode k (wp_bread (Nat.lt_of_lt_of_le (image.range inside used held).2 image.laid.disk) ?_)
    refine wp_seq (ih (by omega) fun bn _ _ => covered bn (by omega) (by omega)) ?_
    rintro _ _ ⟨rfl, rfl⟩
    refine ⟨?_, rfl⟩
    have split : n = min n (512 - off % 512) + (n - min n (512 - off % 512)) := by omega
    conv_rhs => rw [split, List.range_add, List.map_append, List.map_map]
    congr 1
    · refine List.map_congr_left fun j bound => ?_
      have bound := List.mem_range.1 bound
      rw [byteAt_of_some (by rwa [show (off + j) / 512 = off / 512 by omega]), show (off + j) % 512 =
        off % 512 + j by omega]
    · refine List.map_congr_left fun j _ => ?_
      rw [comp_apply, Nat.add_assoc]

/-- `bmap` for the first block that is not known to be there, or for one before. -/
theorem bmap_spec (image : Image s.sb s.block inodes) (cached : (s.icache k).d = inodes i) (inside : i < s.sb.ninodes)
    (used : (inodes i).type ≠ 0) {bn m room : Nat} (small : bn < 140) (next : bn ≤ m)
    (below : ∀ bn < m, (fileBlock s.block (inodes i) bn).isSome)
    (fits : room ≤ spare (inUse s.sb s.block) s.sb.size + blocksFor m) :
    wp (bmap k bn) s (fun b t => ∃ block d, t = s.stored k block d ∧ Rewrites s.sb s.block inodes i block d ∧
        (∀ n, byteAt block d n = byteAt s.block (inodes i) n) ∧ fileBlock block d bn = some b ∧
        (∀ bn' < max m (bn + 1), (fileBlock block d bn').isSome) ∧ (bn < m → d = inodes i) ∧
        room ≤ spare (inUse s.sb block) s.sb.size + blocksFor (max m (bn + 1)))
      fun e => e = .panic "balloc: out of blocks" ∧ room < blocksFor (max m (bn + 1)) := by
  have mono := blocksFor_mono (Nat.le_max_left m (bn + 1))
  cases here : fileBlock s.block (inodes i) bn with
  | some b =>
    refine wp_mono (bmap_of_some image cached inside used here) ?_ fun _ => id
    rintro _ t ⟨rfl, rfl⟩
    refine ⟨t.block, inodes i, by rw [← cached, Fs.stored_self], image.rewrites_refl i, fun _ => rfl, here,
      fun bn' bound => ?_, fun _ => rfl, by omega⟩
    by_cases last : bn' = bn
    · rw [last, here]
      rfl
    · exact below bn' (by omega)
  | none =>
    obtain rfl : bn = m := by
      by_contra other
      have := below bn (by omega)
      rw [here] at this
      cases this
    have cost : bmapCost (inodes i) bn + blocksFor bn ≤ blocksFor (bn + 1) := by
      have single : 12 < bn → (inodes i).addrs 12 ≠ 0 :=
        fun above => indirect_of_fileBlock Nat.le.refl (below 12 above)
      simp only [bmapCost, blocksFor]
      split
      · rename_i double
        have := mt single (not_not.2 double.2)
        split <;> split <;> omega
      · split <;> split <;> omega
    rw [Nat.max_eq_right (by omega : bn ≤ bn + 1)]
    refine wp_mono (bmap_of_none image cached inside used small here) ?_ fun e full => ⟨full.1, by omega⟩
    rintro b _ ⟨block, d, rfl, rewrites, bytes, there, count⟩
    refine ⟨block, d, rfl, rewrites, bytes, there, fun bn' bound => ?_,
      fun less => absurd less (Nat.lt_irrefl bn), by omega⟩
    by_cases last : bn' = bn
    · rw [last, there]
      rfl
    · obtain ⟨c, old⟩ := Option.isSome_iff_exists.1 (below bn' (by omega))
      rw [rewrites.keeps bn' c old]
      rfl

/-- `writei` puts the bytes of `src` over those of the file and allocates the blocks
that are missing. The file has its first `m` blocks before. -/
theorem writeLoop_spec (image : Image s.sb s.block inodes) (cached : (s.icache k).d = inodes i)
    (inside : i < s.sb.ninodes) (used : (inodes i).type ≠ 0) (room : Nat) {rounds off m : Nat} {src : Bytes}
    (enough : src.length ≤ rounds) (small : off + src.length ≤ 140 * 512)
    (below : ∀ bn < m, (fileBlock s.block (inodes i) bn).isSome) (start : off ≤ 512 * m)
    (fits : room ≤ spare (inUse s.sb s.block) s.sb.size + blocksFor m) :
    wp (writeLoop k rounds off src) s (fun _ t => ∃ block d, t = s.stored k block d ∧
      Rewrites s.sb s.block inodes i block d ∧
        (∀ n, byteAt block d n = overlay (byteAt s.block (inodes i)) off src n) ∧
        (∀ bn < max m ((off + src.length + 511) / 512), (fileBlock block d bn).isSome) ∧
        ((off + src.length + 511) / 512 ≤ m → d = inodes i) ∧
        room ≤ spare (inUse s.sb block) s.sb.size + blocksFor (max m ((off + src.length + 511) / 512)))
      fun e => e = .panic "balloc: out of blocks" ∧ room < blocksFor (max m ((off + src.length + 511) / 512)) := by
  have done : ∀ {s : Fs} {inodes : Nat → Dinode} {off m : Nat}, Image s.sb s.block inodes →
    (s.icache k).d = inodes i →
      (∀ bn < m, (fileBlock s.block (inodes i) bn).isSome) → off ≤ 512 * m →
      room ≤ spare (inUse s.sb s.block) s.sb.size + blocksFor m →
      ∃ block d, s = s.stored k block d ∧ Rewrites s.sb s.block inodes i block d ∧
        (∀ n, byteAt block d n = overlay (byteAt s.block (inodes i)) off ([] : Bytes) n) ∧
        (∀ bn < max m ((off + ([] : Bytes).length + 511) / 512), (fileBlock block d bn).isSome) ∧
        ((off + ([] : Bytes).length + 511) / 512 ≤ m → d = inodes i) ∧
        room ≤ spare (inUse s.sb block) s.sb.size + blocksFor (max m ((off + ([] : Bytes).length + 511) / 512)) := by
    intro s inodes off m image cached below start fits
    rw [List.length_nil, Nat.add_zero, Nat.max_eq_left (by omega)]
    refine ⟨s.block, inodes i, ?_, image.rewrites_refl i, fun n => by rw [overlay_nil], below, fun _ => rfl, fits⟩
    rw [← cached, Fs.stored_self]
  induction rounds generalizing s inodes off src m with
  | zero =>
    obtain rfl : src = [] := List.length_eq_zero_iff.1 (Nat.le_zero.1 enough)
    exact done image cached below start fits
  | succ rounds ih =>
    rw [writeLoop]
    refine wp_ite (fun empty => ?_) fun some => ?_
    · subst empty
      exact done image cached below start fits
    · have positive : 0 < src.length := List.length_pos_iff.2 some
      have dropped : (src.drop (512 - off % 512)).length = src.length - (512 - off % 512) := List.length_drop ..
      have reached : max m (off / 512 + 1) ≤ max m ((off + src.length + 511) / 512) := by omega
      refine wp_seq (wp_mono (bmap_spec image cached inside used (by omega) (by omega) below fits) (fun _ _ => id)
        fun e full => ⟨full.1, Nat.lt_of_lt_of_le full.2 (blocksFor_mono reached)⟩) ?_
      rintro b _ ⟨block, d, rfl, first, bytes, here, mapped, old, fits⟩
      have again : update inodes i d i = d := update_self ..
      have type : d.type = (inodes i).type := by rw [first.fields]
      have used' : (update inodes i d i).type ≠ 0 := by rwa [again, type]
      obtain ⟨x, -, held⟩ := fileBlock_eq_some.1 here
      have range := first.image.range (x := x) inside used' (by rwa [again])
      refine wp_inode k (wp_bread (Nat.lt_of_lt_of_le range.2 image.laid.disk) (wp_modify_seq ?_))
      obtain ⟨second, written, map⟩ := first.image.rewrites inside used' (again.symm ▸ here)
        (memmove (block b) (off % 512) (src.take (512 - off % 512)))
      rw [again] at second written
      have both := first.trans second
      have total : max (max m (off / 512 + 1))
        ((off + min src.length (512 - off % 512) + (src.drop (512 - off % 512)).length + 511) / 512) =
          max m ((off + src.length + 511) / 512) := by omega
      refine wp_mono (ih (s := s.stored k (update block b _) d) (m := max m (off / 512 + 1)) both.image
        (by rw [Fs.stored_icache, again]) inside used' (by omega) (by omega) (fun bn bound => ?_) (by omega) ?_) ?_ ?_
      · obtain ⟨c, there⟩ := Option.isSome_iff_exists.1 (mapped bn bound)
        rw [again]
        exact Option.isSome_iff_exists.2 ⟨c, second.keeps bn c (by rwa [again])⟩
      · exact (spare_congr map).symm ▸ fits
      · rintro _ _ ⟨block', d', rfl, rest, bytes', mapped', old', fits'⟩
        rw [total] at mapped' fits'
        rw [Fs.stored_stored]
        refine ⟨block', d', rfl, both.trans rest, fun n => ?_, mapped',
          fun covered => by rw [old' (by omega), again, old (by omega)], fits'⟩
        rw [bytes', again]
        refine congrFun (overlay_block (block b) (fun n same => ?_) fun n => ?_) n
        · rw [← bytes n, byteAt_of_some (by rwa [same])]
        · rw [← bytes n]
          exact written n
      · rintro e ⟨full, short⟩
        rw [total] at short
        exact ⟨full, short⟩

end Code

end MiniOS
