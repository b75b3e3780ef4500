import Ps4o.InPlace.SlotContents

/-!
# Block permutation by one thread

What the functions of the sequential block permutation do.

## What is proved

* `sat_classifyAndReadBlock` — a block is read, or the bucket has no more.
* `sat_swapBlock` — a block is written, and another one is taken along, or none.
* `sat_permuteBlocks` — in the end every bucket has its blocks, and no element has been lost. The
  loops end: every round moves the write pointer of a bucket, and there is room for the blocks of
  the bucket only.
-/

namespace Ps4o.InPlace

open Ps4o.Program Ps4o.Storage Ps4o.Order

variable {α : Type}

/-! ### Reading a block -/

/-- The slots are in the memory, the pointers say how far each bucket has been written and read, and
besides the blocks in the slots there is one in a swap block, or none. -/
structure Permutes (init : Bool) (B n nb : ℕ) (bss : ℕ → ℕ) (key : α → ℕ) (p : Ptr Area)
    (total : Multiset α) (s : Pointers) (m : Mem Area (Slot α)) (W : ℕ → ℕ) (E : ℕ → ℤ)
    (cont : ℕ → List α) (held : List α) : Prop where
  w : ∀ b < nb, (s.bucketPointers b).w = (W b : ℤ) * B
  r : ∀ b < nb, (s.bucketPointers b).r = (E b - 1) * B
  slots : Slots B n nb bss key W E cont
  mem : InMemory init B n p cont s.overflow m
  all : Total B n cont held total

/-- Both swap blocks are empty. -/
def Idle (init : Bool) (B : ℕ) (m : Mem Area (Slot α)) : Prop :=
  ∀ current, Ready init m (swapBlockAt current) B

/-- A swap block holds a block of a bucket. -/
structure Carries (init : Bool) (B nb : ℕ) (key : α → ℕ) (m : Mem Area (Slot α)) (current : Bool)
    (dest : ℕ) (held : List α) : Prop where
  dest_lt : dest < nb
  block : IsBlock B key dest held
  has : Has m (swapBlockAt current) (held.map .full)
  ready : Ready init m (swapBlockAt !current) B

/-- A swap block has been written elsewhere, and the other one was empty. -/
theorem idle_of_ready {init : Bool} {B : ℕ} {m m' : Mem Area (Slot α)} {current : Bool}
    {q : Ptr Area} (h : Ready init m' (swapBlockAt current) B)
    (h' : Ready init m (swapBlockAt !current) B)
    (hf : Frame m m' (seg (swapBlockAt current) B ∪ seg q B)) (hq : ∀ c, Area.swap c ≠ q.arr) :
    Idle init B m' := by
  intro current'
  rcases eq_or_ne current' current with rfl | hne
  · exact h
  · rw [Bool.eq_not_of_ne hne]
    refine hf.ready h' fun i _ hmem => ?_
    rcases hmem with hmem | hmem
    · exact notMem_seg_of_arr (by simp [swapBlockAt]) hmem
    · exact notMem_seg_of_arr (hq _) hmem

/-- Buckets have been written further, and read further. -/
def Later (nb : ℕ) (W W' : ℕ → ℕ) (E E' : ℕ → ℤ) : Prop := ∀ b < nb, W b ≤ W' b ∧ E' b ≤ E b

section
variable {B n nb : ℕ} {bss : ℕ → ℕ} {key : α → ℕ} {p : Ptr Area} {total : Multiset α} {init : Bool}
  {s : Pointers} {m : Mem Area (Slot α)} {W : ℕ → ℕ} {E : ℕ → ℤ} {cont : ℕ → List α} {held : List α}
  {b : ℕ}

theorem Later.refl (nb : ℕ) (W : ℕ → ℕ) (E : ℕ → ℤ) : Later nb W W E E :=
  fun _ _ => ⟨le_rfl, le_rfl⟩

theorem Later.trans {W' W'' : ℕ → ℕ} {E' E'' : ℕ → ℤ} (h : Later nb W W' E E')
    (h' : Later nb W' W'' E' E'') : Later nb W W'' E E'' :=
  fun b hb => ⟨(h b hb).1.trans (h' b hb).1, (h' b hb).2.trans (h b hb).2⟩

/-- The write pointer of a bucket has been moved. -/
theorem Later.incWrite (dest : ℕ) : Later nb W (Function.update W dest (W dest + 1)) E E := by
  intro b _
  rw [Function.update_apply]
  split
  · next heq => exact ⟨by rw [heq]; omega, le_rfl⟩
  · exact ⟨le_rfl, le_rfl⟩

theorem maxOff_eq (hB : 1 ≤ B) : maxOff B n = ((n / B : ℕ) : ℤ) * B := by
  have hdiv : (n + 1 + B - 1) / B = n / B + 1 := by
    rw [show n + 1 + B - 1 = n + B by omega, Nat.add_div_right n (by omega)]
  rw [maxOff, alignToNextBlock, hdiv, Nat.succ_mul]
  push_cast
  omega

theorem mul_block_lt (hB : 1 ≤ B) {x y : ℤ} : x * B < y * B ↔ x < y := by
  have hpos : (0 : ℤ) < B := by omega
  exact ⟨fun h => lt_of_mul_lt_mul_right h hpos.le, fun h => mul_lt_mul_of_pos_right h hpos⟩

theorem mul_block_le (hB : 1 ≤ B) {x y : ℤ} : x * B ≤ y * B ↔ x ≤ y := by
  rw [← not_lt, mul_block_lt hB, not_lt]

/-- Moving the write pointer of a bucket. -/
theorem sum_incWrite (hb : b < nb) :
    ∑ c ∈ Finset.range nb, Function.update W b (W b + 1) c = ∑ c ∈ Finset.range nb, W c + 1 := by
  have hb' := Finset.mem_range.mpr hb
  rw [← Finset.sum_erase_add _ _ hb', ← Finset.sum_erase_add _ W hb', Function.update_self]
  have hsame : ∑ c ∈ (Finset.range nb).erase b, Function.update W b (W b + 1) c = ∑ c ∈
      (Finset.range nb).erase b, W c :=
    Finset.sum_congr rfl fun c hc => Function.update_of_ne (Finset.ne_of_mem_erase hc) ..
  omega

end

section
variable {comp : α → α → Bool} {B n nb : ℕ} {bss f : ℕ → ℕ} {key : α → ℕ} {p : Ptr Area}
  {total : Multiset α} {init eq : Bool} {c : Classifier α} {s : Pointers} {m : Mem Area (Slot α)}
  {W : ℕ → ℕ} {E : ℕ → ℤ} {cont : ℕ → List α} {held : List α} (h : Boundaries false nb n bss)
  (hB : 1 ≤ B) (hp : p.arr = .input) (hclass : ∀ x, c.classify comp eq x = some (key x))
include h hB hp hclass

/-- **Reading a block**: its slot is empty then, and its bucket is known. -/
theorem sat_classifyAndReadBlock (hs : Permutes init B n nb bss key p total s m W E cont [])
    (hidle : Idle init B m) {b : ℕ} (hb : b < nb) :
    Sat (slots Area α init) (permuteSpace B n p) (classifyAndReadBlock comp init B eq c p b s) m
      fun r m' =>
      ∃ E' cont' held', Permutes init B n nb bss key p total r.2 m' W E' cont' held' ∧
      Later nb W W E E' ∧ (r.1 = none ∧ held' = [] ∧ Idle init B m' ∧ E' b ≤ W b ∨
          ∃ dest, r.1 = some dest ∧ Carries init B nb key m' false dest held') := by
  have hw := hs.w b hb
  have hr := hs.r b hb
  have hset : ∀ {c : ℕ}, c < nb → (s.set b ((s.bucketPointers b).decRead B)).bucketPointers c =
      if c = b then (s.bucketPointers b).decRead B else s.bucketPointers c := fun _ => by
    simp only [Pointers.set, Function.update_apply]
  have hptr : ∀ c < nb, ((s.set b ((s.bucketPointers b).decRead B)).bucketPointers c).w =
      (W c : ℤ) * B ∧
      ((s.set b ((s.bucketPointers b).decRead B)).bucketPointers c).r =
      (Function.update E b (E b - 1) c - 1) * B := by
    intro c hc
    rw [hset hc]
    rcases eq_or_ne c b with rfl | hcb
    · rw [if_pos rfl, Function.update_self]
      refine ⟨hw, ?_⟩
      simp only [BucketPointers.decRead, hr]
      rw [Int.sub_mul (E c - 1), Int.one_mul]
    · rw [if_neg hcb, Function.update_of_ne hcb]
      exact ⟨hs.w c hc, hs.r c hc⟩
  have hlater : ∀ {e : ℤ}, e ≤ E b → Later nb W W E (Function.update E b e) := by
    intro e he c _
    rcases eq_or_ne c b with rfl | hcb
    · rw [Function.update_self]
      exact ⟨le_rfl, he⟩
    · rw [Function.update_of_ne hcb]
      exact ⟨le_rfl, le_rfl⟩
  rw [classifyAndReadBlock]
  simp only [hr, hw, mul_block_lt hB]
  by_cases hlt : E b - 1 < W b
  · rw [if_pos hlt]
    refine ⟨_, cont, [], ⟨fun c hc => (hptr c hc).1, fun c hc => (hptr c hc).2,
      hs.slots.noBlock h hB hb (by omega), hs.mem, hs.all⟩, hlater (by omega),
      .inl ⟨rfl, rfl, hidle, ?_⟩⟩
    rw [Function.update_self]
    omega
  · rw [if_neg hlt]
    -- the last block that has not been read
    obtain ⟨k, hk⟩ : ∃ k : ℕ, (k : ℤ) + 1 = E b := ⟨(E b - 1).toNat, by omega⟩
    have hkn : k < n / B := by
      have := hs.slots.le_w b hb
      have := hs.slots.e_le_n b hb (by omega)
      omega
    have hWk : W b ≤ k := by omega
    have hk₁ := (hs.slots.le_w b hb).trans hWk
    have hk₂ : k < firstSlot B bss (b + 1) := by
      have := hs.slots.e_le b hb
      omega
    obtain ⟨dest, hdest, hblock⟩ := (hs.slots.slot b hb k hk₁ hk₂).unread hWk (by omega)
    have hread : ((E b - 1) * (B : ℤ)).toNat = k * B := by
      rw [← hk, Int.add_sub_cancel]
      exact_mod_cast rfl
    rw [hread, sat_bind]
    refine (Block.sat_readFrom hblock.length (hs.mem.has k hkn) (hidle false)
      (by simp [hp, swapBlockAt])).mono (Set.union_subset (slot_subset hkn) (swap_subset false)) ?_
    rintro _ m' ⟨hhas, hmoved, hframe⟩
    obtain ⟨x, l, hx⟩ := List.exists_cons_of_ne_nil (hblock.ne_nil hB)
    have hhead : m'.slot (swapBlockAt false) = .full x := hhas 0 _ (by simp [hx])
    rw [sat_bind]
    refine sat_readAt (swap_subset false (elem_mem_seg_self.mpr (by omega))) hhead
      (sat_bind.mpr (sat_ofOption.mpr ?_))
    refine ⟨dest, by rw [hclass, hblock.key x (by simp [hx])], _, Function.update cont k [], cont k,
      ⟨fun c hc => (hptr c hc).1, fun c hc => ?_, hs.slots.read h hB hb hk hWk, ?_, ?_⟩,
      hlater (by omega), .inr ⟨dest, rfl, hdest, hblock, hhas, ?_⟩⟩
    · rw [(hptr c hc).2, ← hk, Int.add_sub_cancel]
    · exact hs.mem.change hp (fun k _ => hs.slots.length_le h hB k) hkn
        (Set.union_comm _ _ ▸ hframe) has_nil (live_of_forall_moved hmoved)
    · have hsum := sum_update_list (f := cont)
        (Finset.mem_range.mpr (show k < n / B + 1 by omega)) ([] : List α)
      exact hsum.trans hs.all
    · refine hframe.ready (hidle true) fun i hi hmem => ?_
      rcases hmem with hmem | hmem
      · exact notMem_seg_of_arr (by simp [swapBlockAt, hp]) hmem
      · exact notMem_seg_of_arr (by simp [swapBlockAt]) hmem

variable (hf : ∀ b < nb, (total.countP fun x => key x = b) = f b * B)
  (hfits : ∀ b < nb, firstSlot B bss b + f b ≤ firstSlot B bss (b + 1))
include hf

omit hp hclass in
/-- No bucket is written beyond the room for its blocks. -/
theorem Permutes.w_le (hs : Permutes init B n nb bss key p total s m W E cont held) {b : ℕ}
    (hb : b < nb) : W b ≤ firstSlot B bss b + f b := by
  have hroom := hs.slots.room h hB hs.all hb
  rw [hf b hb] at hroom
  have := Nat.le_of_mul_le_mul_right (Nat.le_of_add_right_le hroom) (by omega)
  have := hs.slots.le_w b hb
  omega

omit hp hclass in
/-- While there is a block in a swap block, there is a slot for it. -/
theorem Permutes.sum_lt {current : Bool} {dest : ℕ}
    (hs : Permutes init B n nb bss key p total s m W E cont held)
    (hcar : Carries init B nb key m current dest held) :
    ∑ b ∈ Finset.range nb, W b < ∑ b ∈ Finset.range nb, (firstSlot B bss b + f b) := by
  refine Finset.sum_lt_sum (fun b hb => hs.w_le h hB hf (Finset.mem_range.mp hb))
    ⟨dest, Finset.mem_range.mpr hcar.dest_lt, ?_⟩
  exact hs.slots.w_lt h hB hs.all hcar.dest_lt hcar.block (hf dest hcar.dest_lt)

omit hp hclass in
/-- The next slot of the bucket of a block that is held is one of the bucket, and one that is looked
at. -/
theorem Permutes.next_slot {current : Bool} {dest : ℕ}
    (hs : Permutes init B n nb bss key p total s m W E cont held)
    (hcar : Carries init B nb key m current dest held)
    (hend : firstSlot B bss dest + f dest ≤ firstSlot B bss (dest + 1)) :
    firstSlot B bss dest ≤ W dest ∧ W dest < firstSlot B bss (dest + 1) ∧ W dest < n / B + 1 := by
  have hle := hs.slots.le_w dest hcar.dest_lt
  have hlt := hs.slots.w_lt h hB hs.all hcar.dest_lt hcar.block (hf dest hcar.dest_lt)
  have hn := firstSlot_le h hB (show dest + 1 ≤ nb from hcar.dest_lt)
  omega

omit hf

/-! ### The cases of `swapBlock` -/

variable {current : Bool} {dest : ℕ}
  (hs : Permutes init B n nb bss key p total s m W E cont held)
  (hcar : Carries init B nb key m current dest held)
include hs hcar

omit h hp hclass hB in
/-- The pointers when the write pointer of a bucket has been moved. -/
theorem Permutes.incWrite {b : ℕ} (hb : b < nb) :
    ((s.set dest ((s.bucketPointers dest).incWrite B)).bucketPointers b).w =
        (Function.update W dest (W dest + 1) b : ℤ) * B ∧
      ((s.set dest ((s.bucketPointers dest).incWrite B)).bucketPointers b).r = (E b - 1) * B := by
  simp only [Pointers.set, Function.update_apply]
  rcases eq_or_ne b dest with rfl | hne
  · simp only [if_true, BucketPointers.incWrite, hs.w b hb, hs.r b hb, and_true]
    push_cast
    exact (add_one_mul _ _).symm
  · simp only [if_neg hne]
    exact ⟨hs.w b hb, hs.r b hb⟩

omit hp hclass in
/-- The block that is held has been put into the next slot of its bucket, and what was there is
held. -/
theorem Permutes.put {m' : Mem Area (Slot α)} {o : Bool}
    (hk : W dest < firstSlot B bss (dest + 1)) (hn : W dest < n / B + 1)
    (hmem : InMemory init B n p (Function.update cont (W dest) held) o m') :
    Permutes init B n nb bss key p total
      { s.set dest ((s.bucketPointers dest).incWrite B) with overflow := o } m'
      (Function.update W dest (W dest + 1)) E (Function.update cont (W dest) held)
      (cont (W dest)) where
  w _ hb := (hs.incWrite hcar hb).1
  r _ hb := (hs.incWrite hcar hb).2
  slots := hs.slots.put h hB hcar.dest_lt hk hcar.block
  mem := hmem
  all := (sum_update_list (Finset.mem_range.mpr hn) held).trans hs.all

omit h hclass in
/-- There is no room in the array: the block goes to the overflow block. -/
theorem sat_swapBlock_spill (hnil : cont (n / B) = []) :
    Sat (slots Area α init) (permuteSpace B n p)
      (Block.writeToBlock init B (swapBlockAt current) overflowBlock) m fun _ m' =>
      InMemory init B n p (Function.update cont (n / B) held) true m' ∧ Idle init B m' := by
  refine (Block.sat_writeToBlock hcar.block.length hcar.has (hs.mem.ready hnil)
    (by simp [swapBlockAt, overflowBlock])).mono
    (Set.union_subset (swap_subset current) overflow_subset) ?_
  rintro _ m' ⟨hhas, hready, hframe⟩
  exact ⟨hs.mem.spill hp (hcar.block.ne_nil hB) hframe hhas,
    idle_of_ready hready hcar.ready hframe (by simp [overflowBlock])⟩

omit hclass in
/-- The block goes to an empty slot. -/
theorem sat_swapBlock_fill (hkn : W dest < n / B) :
    Sat (slots Area α init) (permuteSpace B n p)
      (Block.writeTo init B (swapBlockAt current) (p + W dest * B)) m fun _ m' =>
      InMemory init B n p (Function.update cont (W dest) held) s.overflow m' ∧ Idle init B m' := by
  have hlive : Live m (p + W dest * B) B := fun i hi => by
    have := slot_le hkn
    rw [Ptr.add_assoc]
    exact hs.mem.live _ (by omega)
  refine (Block.sat_writeTo hcar.block.length hcar.has hlive (by simp [swapBlockAt, hp])).mono
    (Set.union_subset (swap_subset current) (slot_subset hkn)) ?_
  rintro _ m' ⟨hhas, hready, hframe⟩
  have hlive' : Live m' (p + W dest * B) B := by
    have := live_of_has hhas
    rwa [hcar.block.length] at this
  exact ⟨hs.mem.change hp (fun k _ => hs.slots.length_le h hB k) hkn hframe hhas hlive',
    idle_of_ready hready hcar.ready hframe (by simp [hp])⟩

omit hclass in
/-- The block changes places with another one, which is in the other swap block then. -/
theorem sat_swapBlock_exchange (hkn : W dest < n / B) {new : ℕ} (hnew : new < nb)
    (hblock : IsBlock B key new (cont (W dest))) :
    Sat (slots Area α init) (permuteSpace B n p)
      (do
        Block.readFrom init (swapBlockAt !current) (p + W dest * B) B
        Block.writeTo init B (swapBlockAt current) (p + W dest * B)) m fun _ m' =>
      InMemory init B n p (Function.update cont (W dest) held) s.overflow m' ∧
        Carries init B nb key m' (!current) new (cont (W dest)) := by
  rw [sat_bind]
  refine (Block.sat_readFrom hblock.length (hs.mem.has _ hkn) hcar.ready
    (by simp [hp, swapBlockAt])).mono (Set.union_subset (slot_subset hkn) (swap_subset _)) ?_
  rintro _ m₁ ⟨hhas₁, hmoved, hframe₁⟩
  have hlive₁ : Live m₁ (p + W dest * B) B := live_of_forall_moved hmoved
  have hmem₁ := hs.mem.change (l := []) hp (fun k _ => hs.slots.length_le h hB k) hkn
    (Set.union_comm _ _ ▸ hframe₁) has_nil hlive₁
  have hheld : Has m₁ (swapBlockAt current) (held.map .full) := by
    refine hframe₁.has hcar.has fun i _ hmem => ?_
    rcases hmem with hmem | hmem
    · exact notMem_seg_of_arr (by simp [swapBlockAt, hp]) hmem
    · exact notMem_seg_of_arr (by simp [swapBlockAt]) hmem
  refine (Block.sat_writeTo hcar.block.length hheld hlive₁ (by simp [swapBlockAt, hp])).mono
    (Set.union_subset (swap_subset current) (slot_subset hkn)) ?_
  rintro _ m₂ ⟨hhas₂, hready, hframe₂⟩
  have hlive₂ : Live m₂ (p + W dest * B) B := by
    have := live_of_has hhas₂
    rwa [hcar.block.length] at this
  have hlen : ∀ k < n / B, (Function.update cont (W dest) [] k).length ≤ B := fun k _ => by
    rw [Function.update_apply]
    split
    · exact Nat.zero_le B
    · exact hs.slots.length_le h hB k
  have hmem₂ := hmem₁.change hp hlen hkn hframe₂ hhas₂ hlive₂
  rw [Function.update_idem] at hmem₂
  refine ⟨hmem₂, hnew, hblock, ?_, (Bool.not_not current).symm ▸ hready⟩
  refine hframe₂.has hhas₁ fun i _ hmem => ?_
  rcases hmem with hmem | hmem
  · exact notMem_seg_of_arr (by simp [swapBlockAt]) hmem
  · exact notMem_seg_of_arr (by simp [swapBlockAt, hp]) hmem

omit hs hcar

/-! ### Writing blocks -/

variable (hf : ∀ b < nb, (total.countP fun x => key x = b) = f b * B)
  (hfits : ∀ b < nb, firstSlot B bss b + f b ≤ firstSlot B bss (b + 1))
include hf hfits

/-- **Finding a slot for a block**: it is written, and perhaps another block is in the other swap
block then. -/
theorem sat_swapBlock {current : Bool} {dest fuel : ℕ}
    (hs : Permutes init B n nb bss key p total s m W E cont held)
    (hcar : Carries init B nb key m current dest held)
    (hfuel : ∑ b ∈ Finset.range nb, (firstSlot B bss b + f b) ≤ ∑ b ∈ Finset.range nb, W b + fuel) :
    Sat (slots Area α init) (permuteSpace B n p)
      (swapBlock comp init B eq c p (maxOff B n) dest current fuel s) m
      fun r m' => ∃ W' cont' held', Permutes init B n nb bss key p total r.2 m' W' E cont' held' ∧
      Later nb W W' E E ∧ ∑ b ∈ Finset.range nb, W b + 1 ≤ ∑ b ∈ Finset.range nb, W' b ∧
        (r.1 = none ∧ held' = [] ∧ Idle init B m' ∨
          ∃ d, r.1 = some d ∧ Carries init B nb key m' (!current) d held') := by
  induction fuel generalizing s W m with
  | zero =>
    have := hs.sum_lt h hB hf hcar
    omega
  | succ fuel ih =>
    have hdest := hcar.dest_lt
    obtain ⟨hk₁, hk₂, hn⟩ := hs.next_slot h hB hf hcar (hfits dest hdest)
    have hslot := hs.slots.slot dest hdest _ hk₁ hk₂
    have hlater : Later nb W (Function.update W dest (W dest + 1)) E E := .incWrite dest
    have hsum := sum_incWrite (W := W) hdest
    have hwrite : ((W dest : ℤ) * (B : ℤ)).toNat = W dest * B := by exact_mod_cast rfl
    have hmax : maxOff B n ≤ (W dest : ℤ) * B ↔ ((n / B : ℕ) : ℤ) ≤ W dest := by
      rw [maxOff_eq hB, mul_block_le hB]
    rw [swapBlock]
    simp only [hs.r dest hdest, hs.w dest hdest, mul_block_lt hB, hmax, hwrite]
    by_cases hempty : E dest - 1 < W dest
    · have hnil : cont (W dest) = [] := hslot.empty le_rfl (by omega)
      rw [if_pos hempty]
      by_cases hoff : ((n / B : ℕ) : ℤ) ≤ W dest
      · have hlast : W dest = n / B := by omega
        rw [if_pos hoff, sat_bind]
        refine (sat_swapBlock_spill hB hp hs hcar (hlast ▸ hnil)).imp ?_
        rintro _ m' ⟨hmem, hidle⟩
        rw [← hlast] at hmem
        exact ⟨_, _, _, hs.put h hB hcar hk₂ hn hmem, hlater, hsum.ge, .inl ⟨rfl, hnil, hidle⟩⟩
      · rw [if_neg hoff, sat_bind]
        refine (sat_swapBlock_fill h hB hp hs hcar (by omega)).imp ?_
        rintro _ m' ⟨hmem, hidle⟩
        exact ⟨_, _, _, hs.put h hB hcar hk₂ hn hmem, hlater, hsum.ge, .inl ⟨rfl, hnil, hidle⟩⟩
    · rw [if_neg hempty]
      have hkE : (W dest : ℤ) < E dest := by omega
      have hkn : W dest < n / B := by
        have := hs.slots.e_le_n dest hdest (by omega)
        omega
      obtain ⟨new, hnew, hblock⟩ := hslot.unread le_rfl hkE
      obtain ⟨x, l, hx⟩ := List.exists_cons_of_ne_nil (hblock.ne_nil hB)
      have hhead : m.slot (p + W dest * B) = .full x := hs.mem.has _ hkn 0 _ (by simp [hx])
      rw [sat_bind]
      refine sat_readAt (slot_subset hkn (elem_mem_seg_self.mpr (by omega))) hhead
        (sat_bind.mpr (sat_ofOption.mpr ?_))
      refine ⟨new, by rw [hclass, hblock.key x (by simp [hx])], ?_⟩
      by_cases heq : new = dest
      · -- the block in the slot stays there
        subst heq
        rw [if_pos rfl]
        refine (ih (s := s.set new _) ⟨fun b hb => (hs.incWrite hcar hb).1,
          fun b hb => (hs.incWrite hcar hb).2, hs.slots.keep h hB hdest hkE hblock, hs.mem, hs.all⟩
          hcar (by omega)).imp ?_
        rintro r m' ⟨W', cont', held', hs', hlater', hsum', hres⟩
        exact ⟨W', cont', held', hs', hlater.trans hlater', by omega, hres⟩
      · have hexchange := sat_swapBlock_exchange h hB hp hs hcar hkn hnew hblock
        rw [sat_bind] at hexchange
        rw [if_neg heq, sat_bind]
        refine hexchange.imp fun _ m₁ hm₁ => ?_
        rw [sat_bind]
        refine hm₁.imp ?_
        rintro _ m' ⟨hmem, hcar'⟩
        exact ⟨_, _, _, hs.put h hB hcar hk₂ hn hmem, hlater, hsum.ge, .inr ⟨new, rfl, hcar'⟩⟩

/-- **Writing blocks** until no other one has been read instead. -/
theorem sat_writeBlocks {current : Bool} {dest fuel : ℕ}
    (hs : Permutes init B n nb bss key p total s m W E cont held)
    (hcar : Carries init B nb key m current dest held)
    (hfuel : ∑ b ∈ Finset.range nb, (firstSlot B bss b + f b) ≤ ∑ b ∈ Finset.range nb, W b + fuel) :
    Sat (slots Area α init) (permuteSpace B n p)
      (writeBlocks comp init B eq c p (maxOff B n) fuel dest current s) m
      fun s' m' => ∃ W' cont', Permutes init B n nb bss key p total s' m' W' E cont' [] ∧
      Later nb W W' E E ∧
        ∑ b ∈ Finset.range nb, W b + 1 ≤ ∑ b ∈ Finset.range nb, W' b ∧ Idle init B m' := by
  induction fuel generalizing s W m cont held current dest with
  | zero =>
    have := hs.sum_lt h hB hf hcar
    omega
  | succ fuel ih =>
    rw [writeBlocks, sat_bind]
    refine (sat_swapBlock h hB hp hclass hf hfits hs hcar hfuel).imp ?_
    rintro ⟨dest', s'⟩ m' ⟨W', cont', held', hs', hlater, hsum, ⟨hd, rfl, hidle⟩ | ⟨d, hd, hcar'⟩⟩
    · dsimp only at hd hs' ⊢
      subst hd
      exact ⟨W', cont', hs', hlater, hsum, hidle⟩
    · dsimp only at hd hs' ⊢
      subst hd
      refine (ih hs' hcar' (by omega)).imp ?_
      rintro s'' m'' ⟨W'', cont'', hs'', hlater', hsum', hidle⟩
      exact ⟨W'', cont'', hs'', hlater.trans hlater', by omega, hidle⟩

/-- **Reading the blocks of a bucket**: afterwards there are none left that have not been read. -/
theorem sat_readBlocks {b fuel : ℕ} (hs : Permutes init B n nb bss key p total s m W E cont [])
    (hidle : Idle init B m) (hb : b < nb)
    (hfuel : ∑ b ∈ Finset.range nb, (firstSlot B bss b + f b) < ∑ b ∈ Finset.range nb, W b + fuel) :
    Sat (slots Area α init) (permuteSpace B n p)
      (readBlocks comp init B eq c p (maxOff B n) b fuel s) m
      fun s' m' => ∃ W' E' cont', Permutes init B n nb bss key p total s' m' W' E' cont' [] ∧
      Later nb W W' E E' ∧ E' b ≤ W' b ∧ Idle init B m' := by
  induction fuel generalizing s W E m cont with
  | zero =>
    have := Finset.sum_le_sum fun b hb => hs.w_le h hB hf (Finset.mem_range.mp hb)
    omega
  | succ fuel ih =>
    rw [readBlocks, sat_bind]
    refine (sat_classifyAndReadBlock h hB hp hclass hs hidle hb).imp ?_
    rintro ⟨dest, s'⟩ m' ⟨E', cont', held', hs', hlater, ⟨hd, rfl, hidle', hdone⟩ | ⟨d, hd, hcar⟩⟩
    · dsimp only at hd hs' ⊢
      subst hd
      exact ⟨W, E', cont', hs', hlater, hdone, hidle'⟩
    · dsimp only at hd hs' ⊢
      subst hd
      rw [sat_bind]
      refine (sat_writeBlocks h hB hp hclass hf hfits hs' hcar (by omega)).imp ?_
      rintro s'' m'' ⟨W'', cont'', hs'', hlater', hsum, hidle''⟩
      refine (ih hs'' hidle'' (by omega)).imp ?_
      rintro s₃ m₃ ⟨W₃, E₃, cont₃, hs₃, hlater₃, hdone, hidle₃⟩
      exact ⟨W₃, E₃, cont₃, hs₃, (hlater.trans hlater').trans hlater₃, hdone, hidle₃⟩

/-- **Block permutation**: afterwards there is no block left that has not been read. -/
theorem sat_permuteBlocks {fuel : ℕ} (hs : Permutes init B n nb bss key p total s m W E cont [])
    (hidle : Idle init B m)
    (hfuel : ∑ b ∈ Finset.range nb, (firstSlot B bss b + f b) < ∑ b ∈ Finset.range nb, W b + fuel) :
    Sat (slots Area α init) (permuteSpace B n p) (permuteBlocks comp init B eq c p fuel n nb s) m
      fun s' m' => ∃ W' E' cont', Permutes init B n nb bss key p total s' m' W' E' cont' [] ∧
        (∀ b < nb, E' b ≤ W' b) ∧ Idle init B m' := by
  have hnb := h.pos
  rw [permuteBlocks, sat_bind]
  refine (sat_loop (fun i (r : ℕ × Pointers) m' => r.1 = i % nb ∧ ∃ W' E' cont',
    Permutes init B n nb bss key p total r.2 m' W' E' cont' [] ∧ Later nb W W' E E' ∧
      (∀ b < i, E' b ≤ W' b) ∧
      Idle init B m') ?_ ?_).imp ?_
  · refine ⟨?_, W, E, cont, hs, .refl nb W E, nofun, hidle⟩
    rw [startBucket, Nat.zero_mul, Nat.zero_div, Nat.zero_mod]
  · rintro i hi ⟨readBucket, s'⟩ m' ⟨hread, W', E', cont', hs', hlater, hdone, hidle'⟩
    rw [Nat.mod_eq_of_lt hi] at hread
    dsimp only at hread hs' ⊢
    subst hread
    have hsum : ∑ b ∈ Finset.range nb, W b ≤ ∑ b ∈ Finset.range nb, W' b :=
      Finset.sum_le_sum fun b hb => (hlater b (Finset.mem_range.mp hb)).1
    rw [sat_bind]
    refine (sat_readBlocks h hB hp hclass hf hfits hs' hidle' hi (by omega)).imp ?_
    rintro s'' m'' ⟨W'', E'', cont'', hs'', hlater', hdone', hidle''⟩
    refine ⟨rfl, W'', E'', cont'', hs'', hlater.trans hlater', fun b hb => ?_, hidle''⟩
    rcases Nat.lt_succ_iff_lt_or_eq.mp hb with hlt | rfl
    · have h₁ := hlater' b (by omega)
      exact_mod_cast h₁.2.trans ((hdone b hlt).trans (by exact_mod_cast h₁.1))
    · exact hdone'
  · rintro ⟨_, s'⟩ m' ⟨-, W', E', cont', hs', -, hdone, hidle'⟩
    exact ⟨W', E', cont', hs', hdone, hidle'⟩

omit hp hclass hfits in
/-- When nothing is left to be read, every bucket has all its blocks. -/
theorem Permutes.w_eq (hs : Permutes init B n nb bss key p total s m W E cont [])
    (hdone : ∀ b < nb, E b ≤ W b) {b : ℕ} (hb : b < nb) : W b = firstSlot B bss b + f b := by
  have hother : ∀ k ∈ Finset.range (n / B + 1), k ∉ Finset.Ico (firstSlot B bss b) (W b) →
      ((cont k).countP fun x => key x = b) = 0 := by
    intro k _ hk
    rw [Finset.mem_Ico] at hk
    rcases Nat.lt_or_ge k (firstSlot B bss nb) with hlt | hge
    · obtain ⟨d, hd, hk₁, hk₂⟩ := exists_slot_bucket h hB hlt
      have hslot := hs.slots.slot d hd k hk₁ hk₂
      have hdone' := hdone d hd
      rcases Nat.lt_or_ge k (W d) with hplaced | hempty
      · have hdb : d ≠ b := by
          rintro rfl
          exact hk ⟨hk₁, hplaced⟩
        rw [List.countP_eq_zero]
        intro x hx
        simpa [(hslot.placed hplaced).key x hx] using hdb
      · rw [hslot.empty hempty (by omega)]
        rfl
    · rw [hs.slots.outside k hge]
      rfl
  have hcount : total.countP (fun x => key x = b) = _ := hs.all.countP
  rw [hf b hb, ← Finset.sum_subset (hs.slots.Ico_subset h hB hb) hother,
    hs.slots.sum_placed hb, List.countP_nil, Nat.add_zero] at hcount
  have := Nat.eq_of_mul_eq_mul_right (by omega) hcount
  have := hs.slots.le_w b hb
  omega

end

end Ps4o.InPlace
