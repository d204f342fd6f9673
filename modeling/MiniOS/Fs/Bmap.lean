import MiniOS.Fs.Image

namespace MiniOS

open Lib Function

/-- Inode `i` has become `d'` and its blocks are those of `block'`. The other
inodes and their contents are the same. -/
structure Rewrites (sb : Superblock) (block : Nat → Block) (inodes : Nat → Dinode) (i : Nat) (block' : Nat → Block)
    (d' : Dinode) : Prop where
  image : Image sb block' (update inodes i d')
  low : ∀ c < sb.bmapstart, block' c = block c
  fields : d' = { inodes i with addrs := d'.addrs }
  others : ∀ j < sb.ninodes, j ≠ i → (inodes j).type ≠ 0 → ∀ n, byteAt block' (inodes j) n = byteAt block (inodes j) n
  keeps : ∀ bn b, fileBlock block (inodes i) bn = some b → fileBlock block' d' bn = some b

/-- Slot `x` of inode `i` has got the cleared block `b`. -/
structure Grows (sb : Superblock) (block : Nat → Block) (inodes : Nat → Dinode) (i : Nat) (block' : Nat → Block)
    (d' : Dinode) (x : Slot) (b : Nat) : Prop extends Rewrites sb block inodes i block' d' where
  bytes : ∀ n, byteAt block' d' n = byteAt block (inodes i) n
  taken : slotBlock block' d' x = some b
  rest : ∀ y, y ≠ x → slotBlock block' d' y = slotBlock block (inodes i) y
  spare : spare (inUse sb block') sb.size + 1 = spare (inUse sb block) sb.size

section Image

variable {sb : Superblock} {block block' block'' : Nat → Block} {inodes : Nat → Dinode} {i b bn : Nat}
  {x : Slot} {d' d'' : Dinode}

theorem Rewrites.trans (first : Rewrites sb block inodes i block' d')
    (second : Rewrites sb block' (update inodes i d') i block'' d'') : Rewrites sb block inodes i block'' d'' where
  image := by
    have image := second.image
    rwa [update_idem] at image
  low c below := (second.low c below).trans (first.low c below)
  fields := by
    have fields := second.fields
    rw [update_self, first.fields] at fields
    exact fields
  others j inside other used n := by
    have same : update inodes i d' j = inodes j := update_of_ne other ..
    have later := second.others j inside other (by rwa [same]) n
    rw [same] at later
    exact later.trans (first.others j inside other used n)
  keeps bn b here := second.keeps bn b (by rw [update_self]; exact first.keeps bn b here)

theorem Image.rewrites_refl (image : Image sb block inodes) (i : Nat) : Rewrites sb block inodes i block (inodes i) :=
  ⟨by rwa [update_eq_self], fun _ _ => rfl, rfl, fun _ _ _ _ _ => rfl, fun _ _ => id⟩

/-- A slot that was empty gets a block that `balloc` has taken. -/
theorem Image.grows (image : Image sb block inodes) (inside : i < sb.ninodes) (used : (inodes i).type ≠ 0)
    (claims : Claims sb block block' b) (vacant : slotBlock block (inodes i) x = none)
    (taken : slotBlock block'' d' x = some b)
    (rest : ∀ y, y ≠ x → slotBlock block'' d' y = slotBlock block (inodes i) y)
    (fields : d' = { inodes i with addrs := d'.addrs }) (map : block'' sb.bmapstart = block' sb.bmapstart)
    (zero : ∀ z < 512, block'' b z = 0) (same : ∀ c, c ≠ b → c ≠ sb.bmapstart →
      slotBlock block (inodes i) (.addr 12) ≠ some c → block'' c = block c) :
    Grows sb block inodes i block'' d' x b := by
  have low := image.owns.low_le claims.inside claims.free
  have start := sb.bmapstart_lt
  have type : d'.type = (inodes i).type := by rw [fields]
  have size : d'.size = (inodes i).size := by rw [fields]
  have other : ∀ {j y c}, j < sb.ninodes → (inodes j).type ≠ 0 → slotBlock block (inodes j) y = some c →
      (j, y) ≠ (i, .addr 12) → block'' c = block c := by
    intro j y c bound type here distinct
    have mine := owner_eq_some.2 ⟨⟨bound, type⟩, here⟩
    have data := image.owns.range mine
    refine same c ?_ (by omega) fun there => ?_
    · rintro rfl
      exact image.owns.not_own claims.free mine
    · obtain ⟨one, two⟩ := image.apart bound type here inside used there
      exact distinct (by rw [one, two])
  have slots : ∀ {j}, j < sb.ninodes → j ≠ i → (inodes j).type ≠ 0 → ∀ y,
      slotBlock block'' (inodes j) y = slotBlock block (inodes j) y := by
    intro j bound distinct type y
    refine slotBlock_congr (slotWord_congr rfl fun there z _ => congrFun ?_ z)
    exact other (y := .addr 12) bound type (slotBlock_eq_some.2 ⟨there, rfl⟩) fun pair =>
      distinct (Prod.mk.inj pair).1
  have file : ∀ {bn c}, fileBlock block (inodes i) bn = some c → fileBlock block'' d' bn = some c := by
    intro bn c here
    obtain ⟨y, slot, held⟩ := fileBlock_eq_some.1 here
    refine fileBlock_eq_some.2 ⟨y, slot, (rest y ?_).trans held⟩
    rintro rfl
    rw [vacant] at held
    cases held
  have marks : ∀ c < sb.size, inUse sb block'' c = inUse sb block' c :=
    fun c bound => inUse_congr image.laid map bound
  have marked : inUse sb block'' b = true := (marks b claims.inside).trans claims.marked
  have unmarked : ∀ c < sb.size, c ≠ b → inUse sb block'' c = inUse sb block c :=
    fun c bound distinct => (marks c bound).trans (claims.others c bound distinct)
  refine ⟨⟨⟨image.laid, ?_, fun j bound type' bn covered => ?_⟩, fun c below => ?_, fields,
    fun j bound distinct type n => ?_,
    fun bn c here => file here⟩, fun n => ?_, taken, rest, spare_mark claims.inside claims.free marked unmarked⟩
  · refine image.owns.claim (x := (i, x)) ?_ claims.inside claims.free ?_ (fun ⟨j, y⟩ distinct => ?_) marked unmarked
    · rw [owner_of_allocated inside used, vacant]
    · rw [owner_of_allocated inside (by rwa [update_self, type]), update_self, taken]
    · by_cases here : j = i
      · subst here
        rw [owner_of_allocated inside (by rwa [update_self, type]), update_self, owner_of_allocated inside used]
        exact rest y fun same => distinct (by rw [same])
      · simp only [owner, update_of_ne here]
        split
        · exact slots (by tauto) here (by tauto) y
        · rfl
  · by_cases here : j = i
    · subst here
      rw [update_self] at covered ⊢
      rw [size] at covered
      obtain ⟨c, held⟩ := Option.isSome_iff_exists.1 (image.mapped j inside used bn covered)
      rw [file held]
      rfl
    · rw [update_of_ne here] at type' covered ⊢
      rw [fileBlock_congr (slots bound here type')]
      exact image.mapped j bound type' bn covered
  · refine same c (by omega) (by omega) fun there => ?_
    have := (image.range inside used there).1
    omega
  · refine byteAt_congr (fileBlock_congr (slots bound distinct type) _) fun c here z _ => congrFun ?_ z
    obtain ⟨y, _, held⟩ := fileBlock_eq_some.1 here
    exact other bound type held fun pair => distinct (Prod.mk.inj pair).1
  · cases slot : slotOf (n / 512) with
    | none => rw [byteAt_of_none (by rw [fileBlock, slot]; rfl), byteAt_of_none (by rw [fileBlock, slot]; rfl)]
    | some y =>
      by_cases here : y = x
      · subst here
        rw [byteAt_of_some (fileBlock_eq_some.2 ⟨y, slot, taken⟩),
          byteAt_of_none (by rw [fileBlock, slot]; exact vacant)]
        exact zero _ (Nat.mod_lt _ (by decide))
      · refine byteAt_congr (by simp only [fileBlock, slot, Option.bind_some, rest y here]) fun c mine z _ =>
          congrFun ?_ z
        obtain ⟨y', slot', held⟩ := fileBlock_eq_some.1 mine
        refine other inside used held fun pair => slotOf_ne_indirect
          (slot'.trans (congrArg some (Prod.mk.inj pair).2))

/-- A block of the file gets new data. -/
theorem Image.rewrites (image : Image sb block inodes) (inside : i < sb.ninodes) (used : (inodes i).type ≠ 0)
    (here : fileBlock block (inodes i) bn = some b) (data : Block) :
    Rewrites sb block inodes i (update block b data) (inodes i) ∧
      (∀ n, byteAt (update block b data) (inodes i) n =
        if n / 512 = bn then data (n % 512) else byteAt block (inodes i) n) ∧
      ∀ c < sb.size, inUse sb (update block b data) c = inUse sb block c := by
  obtain ⟨x, slot, mine⟩ := fileBlock_eq_some.1 here
  have range := image.range inside used mine
  have start := sb.bmapstart_lt
  have map : ∀ c < sb.size, inUse sb (update block b data) c = inUse sb block c :=
    fun c bound => inUse_congr image.laid (update_of_ne (by omega) ..) bound
  have indirect : ∀ c, (∃ j, owner sb block inodes (j, .addr 12) = some c) → ∀ z < 512,
      update block b data c z = block c z := by
    rintro c ⟨j, theirs⟩ z _
    rw [update_of_ne]
    rintro rfl
    obtain ⟨allocated, held⟩ := owner_eq_some.1 theirs
    obtain ⟨rfl, rfl⟩ := image.apart inside used mine allocated.1 allocated.2 held
    exact slotOf_ne_indirect slot
  have slots : ∀ {j}, j < sb.ninodes → (inodes j).type ≠ 0 → ∀ y,
      slotBlock (update block b data) (inodes j) y = slotBlock block (inodes j) y :=
    fun bound type => slotBlock_congr_of_allocated bound type indirect
  refine ⟨⟨image.congr indirect map fun j _ => by rw [update_eq_self], fun c below => update_of_ne (by omega) ..,
    rfl, fun j bound distinct type n => ?_, fun bn' c held => ?_⟩, fun n => ?_, map⟩
  · refine byteAt_congr (fileBlock_congr (slots bound type) _) fun c theirs z _ => ?_
    rw [update_of_ne]
    rintro rfl
    obtain ⟨y, _, held⟩ := fileBlock_eq_some.1 theirs
    exact distinct (image.apart bound type held inside used mine).1
  · rwa [fileBlock_congr (slots inside used)]
  · by_cases at_bn : n / 512 = bn
    · rw [if_pos at_bn, byteAt_of_some (b := b) (by rw [at_bn, fileBlock_congr (slots inside used), here]),
        update_self]
    · rw [if_neg at_bn]
      refine byteAt_congr (fileBlock_congr (slots inside used) _) fun c theirs z _ => ?_
      rw [update_of_ne]
      rintro rfl
      obtain ⟨y, slot', held⟩ := fileBlock_eq_some.1 theirs
      obtain ⟨-, rfl⟩ := image.apart inside used held inside used mine
      exact at_bn (slotOf_inj slot' slot)

end Image

/-- The state with other blocks and another copy of the inode in entry `k`. -/
def Fs.stored (s : Fs) (k : Fin ninode) (block : Nat → Block) (d : Dinode) : Fs :=
  { s with block := block, icache := update s.icache k { s.icache k with d := d } }

section Code

variable {s : Fs} {k : Fin ninode} {inodes : Nat → Dinode} {i b bn : Nat} {err : Stop → Prop}
  {block : Nat → Block} {d : Dinode}

theorem Fs.stored_icache : (s.stored k block d).icache k = { s.icache k with d := d } := update_self ..

theorem Fs.stored_stored (block' : Nat → Block) (d' : Dinode) :
    (s.stored k block d).stored k block' d' = s.stored k block' d' := by
  simp only [Fs.stored, update_self, update_idem]

theorem Fs.stored_self (s : Fs) (k : Fin ninode) : s.stored k s.block (s.icache k).d = s := by
  simp only [Fs.stored, update_eq_self]

theorem toNat_blockNumber (positive : 0 < b) (small : b < 1000) :
    (BitVec.ofNat 32 b).toNat = b ∧ BitVec.ofNat 32 b ≠ 0 := by
  have number : (BitVec.ofNat 32 b).toNat = b := by
    rw [BitVec.toNat_ofNat, Nat.mod_eq_of_lt (by omega)]
  refine ⟨number, fun zero => ?_⟩
  have none := congrArg BitVec.toNat zero
  rw [number] at none
  exact absurd none (Nat.pos_iff_ne_zero.1 positive)

/-- The block of an empty element of `addrs` is allocated. -/
theorem bmapAddr_spec {a : Fin 13} (image : Image s.sb s.block inodes) (cached : (s.icache k).d = inodes i)
    (inside : i < s.sb.ninodes) (used : (inodes i).type ≠ 0) (vacant : (inodes i).addrs a = 0) :
    wp (bmapAddr k a) s (fun b t => ∃ block d, t = s.stored k block d ∧
      Grows s.sb s.block inodes i block d (.addr a) b)
      fun e => e = .panic "balloc: out of blocks" ∧ spare (inUse s.sb s.block) s.sb.size = 0 := by
  refine wp_inode k ?_
  rw [if_pos (by rw [cached, vacant])]
  refine wp_seq (wp_mono (balloc_spec _ image.laid image.covered) (fun _ _ => id) fun e full =>
    ⟨full.1, spare_eq_zero full.2⟩) ?_
  rintro _ _ ⟨b, block, rfl, claims, -, rfl⟩
  have small := image.laid.disk
  have low := image.owns.low_le claims.inside claims.free
  have start := s.sb.bmapstart_lt
  have bound := claims.inside
  simp only [fssize] at small
  obtain ⟨number, nonzero⟩ := toNat_blockNumber (by omega : 0 < b) (by omega)
  refine ⟨block, { (s.icache k).d with addrs := update (s.icache k).d.addrs a (BitVec.ofNat 32 b) }, rfl, ?_⟩
  rw [number, cached]
  refine image.grows inside used claims (slotBlock_eq_none.2 vacant)
    (slotBlock_eq_some.2 ⟨by simpa only [slotWord, update_self] using nonzero,
      by simpa only [slotWord, update_self] using number⟩) (fun y other => slotBlock_congr ?_) rfl rfl claims.zero
    fun c distinct away _ => claims.same c distinct away
  cases y with
  | addr a' => exact update_of_ne (fun same => other (congrArg Slot.addr same)) ..
  | entry j =>
    by_cases indirect : a = 12
    · -- The entries of the new indirect block are zero, like those of the missing one.
      subst indirect
      have clear : load32 (block b) (4 * j) = 0 := by
        simp only [load32]
        rw [claims.zero _ (by omega), claims.zero _ (by omega), claims.zero _ (by omega), claims.zero _ (by omega)]
        rfl
      simp only [slotWord, update_self, if_neg nonzero, number, clear, vacant, if_true]
    · simp only [slotWord, update_of_ne (Ne.symm indirect)]
      by_cases zero : (inodes i).addrs 12 = 0
      · rw [if_pos zero, if_pos zero]
      · have mine : slotBlock s.block (inodes i) (.addr 12) = some ((inodes i).addrs 12).toNat :=
          slotBlock_eq_some.2 ⟨zero, rfl⟩
        have range := image.range inside used mine
        rw [if_neg zero, if_neg zero, claims.same _ ?_ (by omega)]
        rintro rfl
        exact image.owns.not_own claims.free (owner_eq_some.2 ⟨⟨inside, used⟩, mine⟩)

/-- The block of an empty entry of the indirect block is allocated. -/
theorem bmapEntry_spec {dev ind : Nat} {j : Fin 128} (image : Image s.sb s.block inodes)
    (cached : (s.icache k).d = inodes i) (inside : i < s.sb.ninodes) (used : (inodes i).type ≠ 0)
    (indirect : slotBlock s.block (inodes i) (.addr 12) = some ind)
    (vacant : slotBlock s.block (inodes i) (.entry j) = none) :
    wp (bmapEntry dev ind j) s (fun b t => ∃ block d, t = s.stored k block d ∧
      Grows s.sb s.block inodes i block d (.entry j) b)
      fun e => e = .panic "balloc: out of blocks" ∧ spare (inUse s.sb s.block) s.sb.size = 0 := by
  have small := image.laid.disk
  have place := image.range inside used indirect
  obtain ⟨there, address⟩ := slotBlock_eq_some.1 indirect
  have there : (inodes i).addrs 12 ≠ 0 := there
  have address : ((inodes i).addrs 12).toNat = ind := address
  have word : ∀ j : Fin 128, slotWord s.block (inodes i) (.entry j) = load32 (s.block ind) (4 * j) := by
    intro j
    simp only [slotWord]
    rw [if_neg there, address]
  rw [slotBlock_eq_none, word] at vacant
  refine wp_bread (by omega) ?_
  rw [if_pos vacant]
  refine wp_seq (wp_mono (balloc_spec _ image.laid image.covered) (fun _ _ => id) fun e full =>
    ⟨full.1, spare_eq_zero full.2⟩) ?_
  rintro _ _ ⟨b, block, rfl, claims, -, rfl⟩
  have low := image.owns.low_le claims.inside claims.free
  have start := s.sb.bmapstart_lt
  have bound := claims.inside
  simp only [fssize] at small
  obtain ⟨number, nonzero⟩ := toNat_blockNumber (by omega : 0 < b) (by omega)
  have other : ind ≠ b := by
    rintro rfl
    exact image.owns.not_own claims.free (owner_eq_some.2 ⟨⟨inside, used⟩, indirect⟩)
  refine ⟨update block ind (store32 (s.block ind) (4 * j) (BitVec.ofNat 32 b)), (s.icache k).d, ?_, ?_⟩
  · simp only [Fs.stored, update_eq_self]
  rw [number, cached]
  have entry : ∀ j' : Fin 128,
    slotWord (update block ind (store32 (s.block ind) (4 * j) (BitVec.ofNat 32 b))) (inodes i)
      (.entry j') = load32 (store32 (s.block ind) (4 * j) (BitVec.ofNat 32 b)) (4 * j') := by
    intro j'
    simp only [slotWord]
    rw [if_neg there, address, update_self]
  refine image.grows inside used claims (by rw [slotBlock_eq_none, word, vacant])
    (slotBlock_eq_some.2 ⟨by rwa [entry, load32_store32], by rwa [entry, load32_store32]⟩)
    (fun y distinct => slotBlock_congr ?_)
    rfl (update_of_ne (by omega) ..) (fun z below => ?_) fun c distinct away mine => ?_
  · cases y with
    | addr a => rfl
    | entry j' =>
      rw [entry, word]
      have apart : (j' : Nat) ≠ j := fun same => distinct (congrArg Slot.entry (Fin.ext same))
      exact load32_congr fun x _ _ => store32_of_not_mem (by omega)
  · rw [update_of_ne other.symm]
    exact claims.zero z below
  · rw [update_of_ne fun same => mine (by rw [same, indirect])]
    exact claims.same c distinct away

theorem bmapAddr_of_some {a : Fin 13} (there : (s.icache k).d.addrs a ≠ 0) :
    wp (bmapAddr k a) s (fun b t => b = ((s.icache k).d.addrs a).toNat ∧ t = s) err := by
  refine wp_inode k ?_
  rw [if_neg there]
  exact ⟨rfl, rfl⟩

/-- `bmap` finds a block that the file has. -/
theorem bmap_of_some (image : Image s.sb s.block inodes) (cached : (s.icache k).d = inodes i)
    (inside : i < s.sb.ninodes) (used : (inodes i).type ≠ 0) (here : fileBlock s.block (inodes i) bn = some b) :
    wp (bmap k bn) s (fun b' t => b' = b ∧ t = s) err := by
  obtain ⟨x, slot, held⟩ := fileBlock_eq_some.1 here
  obtain ⟨nonzero, value⟩ := slotBlock_eq_some.1 held
  simp only [slotOf] at slot
  rw [bmap]
  split at slot
  · rename_i direct
    cases slot
    rw [dif_pos direct, ← value]
    rw [← cached] at nonzero ⊢
    exact bmapAddr_of_some nonzero
  · rename_i direct
    split at slot
    · rename_i indirect
      cases slot
      have there : (inodes i).addrs 12 ≠ 0 := by
        intro zero
        simp only [slotWord] at nonzero
        rw [if_pos zero] at nonzero
        exact nonzero rfl
      simp only [slotWord, if_neg there] at nonzero value
      have range := image.range (x := .addr 12) inside used (slotBlock_eq_some.2 ⟨there, rfl⟩)
      rw [dif_neg direct, if_pos indirect]
      refine wp_seq (bmapAddr_of_some (by rwa [cached])) ?_
      rintro _ _ ⟨rfl, rfl⟩
      rw [cached]
      refine wp_inode k (wp_bread (Nat.lt_of_lt_of_le range.2 image.laid.disk) ?_)
      rw [if_neg nonzero]
      exact ⟨value, rfl⟩
    · cases slot

/-- The number of blocks that `bmap` allocates for block `bn`, which is missing. -/
def bmapCost (d : Dinode) (bn : Nat) : Nat := if 12 ≤ bn ∧ d.addrs 12 = 0 then 2 else 1

/-- `bmap` allocates a block that is missing. -/
theorem bmap_of_none (image : Image s.sb s.block inodes) (cached : (s.icache k).d = inodes i)
    (inside : i < s.sb.ninodes) (used : (inodes i).type ≠ 0) (small : bn < 140)
    (missing : fileBlock s.block (inodes i) bn = none) :
    wp (bmap k bn) s (fun b t => ∃ block d, t = s.stored k block d ∧ Rewrites s.sb s.block inodes i block d ∧
        (∀ n, byteAt block d n = byteAt s.block (inodes i) n) ∧ fileBlock block d bn = some b ∧
        spare (inUse s.sb s.block) s.sb.size ≤ spare (inUse s.sb block) s.sb.size + bmapCost (inodes i) bn)
      fun e => e = .panic "balloc: out of blocks" ∧
      spare (inUse s.sb s.block) s.sb.size < bmapCost (inodes i) bn := by
  rw [bmap]
  by_cases direct : bn < 12
  · have slot : slotOf bn = some (.addr ⟨bn, by omega⟩) := dif_pos direct
    have cost : bmapCost (inodes i) bn = 1 := if_neg (by omega)
    rw [fileBlock, slot, Option.bind_some, slotBlock_eq_none] at missing
    rw [dif_pos direct, cost]
    refine wp_mono (bmapAddr_spec image cached inside used missing) ?_ fun e full => ⟨full.1, by omega⟩
    rintro b t ⟨block, d, rfl, grows⟩
    exact ⟨block, d, rfl, grows.toRewrites, grows.bytes,
      fileBlock_eq_some.2 ⟨_, slot, grows.taken⟩, by rw [grows.spare]⟩
  · have indirect : bn - 12 < 128 := by omega
    have slot : slotOf bn = some (.entry ⟨bn - 12, indirect⟩) := by rw [slotOf, dif_neg direct, dif_pos indirect]
    rw [fileBlock, slot, Option.bind_some] at missing
    rw [dif_neg direct, if_pos indirect]
    by_cases there : (inodes i).addrs 12 = 0
    · have cost : bmapCost (inodes i) bn = 2 := if_pos ⟨by omega, there⟩
      rw [cost]
      refine wp_seq (wp_mono (bmapAddr_spec image cached inside used there) (fun _ _ => id) fun e full =>
        ⟨full.1, by omega⟩) ?_
      rintro ind _ ⟨block, d, rfl, grows⟩
      have type : d.type = (inodes i).type := by rw [grows.fields]
      have again : update inodes i d i = d := update_self ..
      refine wp_inode k (wp_mono (bmapEntry_spec (s := s.stored k block d) (j := ⟨bn - 12, indirect⟩) grows.image
        (by rw [Fs.stored_icache, again]) inside (by rwa [again, type]) (by rw [again]; exact grows.taken)
        (by rw [again, ← missing]; exact grows.rest _ fun wrong => by cases wrong)) ?_ fun e full => ⟨full.1, ?_⟩)
      · rintro b t ⟨block', d', rfl, grows'⟩
        rw [Fs.stored_stored]
        refine ⟨block', d', rfl, grows.toRewrites.trans grows'.toRewrites, fun n => ?_,
          fileBlock_eq_some.2 ⟨_, slot, grows'.taken⟩, ?_⟩
        · rw [grows'.bytes, again]
          exact grows.bytes n
        · have first := grows.spare
          have second : spare (inUse s.sb block') s.sb.size + 1 = spare (inUse s.sb block) s.sb.size := grows'.spare
          omega
      · have count := grows.spare
        have none : spare (inUse s.sb block) s.sb.size = 0 := full.2
        omega
    · have cost : bmapCost (inodes i) bn = 1 := if_neg fun both => there both.2
      rw [cost]
      refine wp_seq (bmapAddr_of_some (by rwa [cached])) ?_
      rintro _ _ ⟨rfl, rfl⟩
      rw [cached]
      refine wp_inode k (wp_mono (bmapEntry_spec (j := ⟨bn - 12, indirect⟩) image cached inside used
        (slotBlock_eq_some.2 ⟨there, rfl⟩) missing) ?_ fun e full => ⟨full.1, by omega⟩)
      rintro b t ⟨block, d, rfl, grows⟩
      exact ⟨block, d, rfl, grows.toRewrites, grows.bytes,
        fileBlock_eq_some.2 ⟨_, slot, grows.taken⟩, by rw [grows.spare]⟩

end Code

end MiniOS
