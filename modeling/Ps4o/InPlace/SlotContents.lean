import Mathlib.Algebra.Order.Ring.Int
import Mathlib.Order.Interval.Finset.Nat
import Ps4o.InPlace.Classification

/-!
# Block permutation by one thread: the code and the slots

One thread goes through the buckets; it reads the blocks of each, and for each block it finds the
slot where it belongs, taking along the block that stands there (`block_permutation.hpp`). What a
bucket has too much for the array is written to the overflow block.

## What is proved

* `Slots` — in each bucket, the blocks of the bucket, then blocks that have not been read, then
  empty slots; kept when a block is read (`Slots.read`), kept in its place (`Slots.keep`) and
  written (`Slots.put`).
* `Slots.w_lt` — there is room for a block that has not been written.
* `InMemory.change`, `InMemory.spill` — what the memory holds when a slot or the overflow block is
  written.
-/

namespace Ps4o.InPlace

open Ps4o.Program Ps4o.Storage Ps4o.Order

variable {α : Type}

/-! ### The code -/

/-- `computeOverflowBucket`: the last of the buckets with more elements than one block. -/
def computeOverflowBucket (kBlockSize : ℕ) (bss : ℕ → ℕ) : (numBuckets : ℕ) → Option ℕ
  | 0 => none
  | bucket + 1 =>
    if bss (bucket + 1) - bss bucket ≤ kBlockSize then computeOverflowBucket kBlockSize bss bucket
      else some bucket

/-- What the block permutation changes in a sorter. -/
structure Pointers where
  /-- `bucket_pointers_`. -/
  bucketPointers : ℕ → BucketPointers
  /-- Whether `overflow_` is set. -/
  overflow : Bool

/-- The pointers of a bucket are replaced. -/
def Pointers.set (s : Pointers) (bucket : ℕ) (bp : BucketPointers) : Pointers :=
  { s with bucketPointers := Function.update s.bucketPointers bucket bp }

/-- A swap block. -/
def swapBlockAt (current : Bool) : Ptr Area := ⟨.swap current, 0⟩

/-- The overflow block. -/
def overflowBlock : Ptr Area := ⟨.overflow, 0⟩

section
variable (comp : α → α → Bool) (kInitializedStorage : Bool) (kBlockSize : ℕ) (kEqualBuckets : Bool)
  (c : Classifier α) (p : Ptr Area)

/-- Tries to read a block from a bucket, and answers the bucket of the block. -/
def classifyAndReadBlock (readBucket : ℕ) (s : Pointers) : Act Area α (Option ℕ × Pointers) := do
  let bp := s.bucketPointers readBucket
  let s := s.set readBucket (bp.decRead kBlockSize)
  if bp.r < bp.w then
    pure (none, s)
  else do
    Block.readFrom kInitializedStorage (swapBlockAt false) (p + bp.r.toNat) kBlockSize
    let head ← readAt (swapBlockAt false)
    let dest ← Prog.ofOption (c.classify comp kEqualBuckets head)
    pure (some dest, s)

/-- Finds a slot for the block in the swap buffer. May or may not read another block instead, and
answers its bucket. -/
def swapBlock (maxOff : ℤ) (destBucket : ℕ) (currentSwap : Bool) :
    (fuel : ℕ) → Pointers → Act Area α (Option ℕ × Pointers)
  | 0, _ => .halt .fuel
  | fuel + 1, s => do
    let bp := s.bucketPointers destBucket
    let s := s.set destBucket (bp.incWrite kBlockSize)
    if bp.r < bp.w then
      if maxOff ≤ bp.w then do
        -- Out-of-bounds; write to overflow buffer instead
        Block.writeToBlock kInitializedStorage kBlockSize (swapBlockAt currentSwap) overflowBlock
        pure (none, { s with overflow := true })
      else do
        Block.writeTo kInitializedStorage kBlockSize (swapBlockAt currentSwap) (p + bp.w.toNat)
        pure (none, s)
    else do
      let head ← readAt (p + bp.w.toNat)
      let newDestBucket ← Prog.ofOption (c.classify comp kEqualBuckets head)
      if newDestBucket = destBucket then
        swapBlock maxOff destBucket currentSwap fuel s
      else do
        Block.readFrom kInitializedStorage (swapBlockAt !currentSwap) (p + bp.w.toNat) kBlockSize
        Block.writeTo kInitializedStorage kBlockSize (swapBlockAt currentSwap) (p + bp.w.toNat)
        pure (some newDestBucket, s)

/-- Writes blocks until no other block has been read instead. -/
def writeBlocks (maxOff : ℤ) : (fuel destBucket : ℕ) → (currentSwap : Bool) →
    Pointers → Act Area α Pointers
  | 0, _, _, _ => .halt .fuel
  | fuel + 1, destBucket, currentSwap, s => do
    let (dest, s) ← swapBlock comp kInitializedStorage kBlockSize kEqualBuckets c p
      maxOff destBucket currentSwap (fuel + 1) s
    match dest with
    | none => pure s
    | some dest => writeBlocks maxOff fuel dest (!currentSwap) s

/-- Reads the blocks of a bucket, and writes each where it belongs. -/
def readBlocks (maxOff : ℤ) (readBucket : ℕ) : (fuel : ℕ) → Pointers → Act Area α Pointers
  | 0, _ => .halt .fuel
  | fuel + 1, s => do
    let (dest, s) ← classifyAndReadBlock comp kInitializedStorage kBlockSize
      kEqualBuckets c p readBucket s
    match dest with
    | none => pure s
    | some dest => do
      let s ← writeBlocks comp kInitializedStorage kBlockSize kEqualBuckets c p maxOff
        (fuel + 1) dest false s
      readBlocks maxOff readBucket fuel s

/-- Block permutation phase, for one thread; no loop takes more than `fuel` rounds. -/
def permuteBlocks (fuel n numBuckets : ℕ) (s : Pointers) : Act Area α Pointers := do
  let (_, s) ← Prog.loop (fun _ (r : ℕ × Pointers) => do
    let s ← readBlocks comp kInitializedStorage kBlockSize kEqualBuckets c p
      (maxOff kBlockSize n) r.1 fuel r.2
    pure ((r.1 + 1) % numBuckets, s)) numBuckets (startBucket numBuckets 1 0, s)
  pure s

end

/-! ### What is in the slots -/

/-- The first slot of a bucket. -/
def firstSlot (B : ℕ) (bss : ℕ → ℕ) (b : ℕ) : ℕ := alignToNextBlock B (bss b) / B

/-- What slot `k` of bucket `b` holds, when the bucket has been written up to slot `w` and read from
slot `e` on. -/
def SlotHas (B nb : ℕ) (key : α → ℕ) (w : ℕ) (e : ℤ) (b k : ℕ) (l : List α) : Prop :=
  if k < w then IsBlock B key b l else if (k : ℤ) < e then ∃ c < nb, IsBlock B key c l else l = []

/-- Each bucket `b` has its own blocks, up to slot `W b`, then blocks that have not been read, up to
slot `E b`, and then empty slots. -/
structure Slots (B n nb : ℕ) (bss : ℕ → ℕ) (key : α → ℕ) (W : ℕ → ℕ) (E : ℕ → ℤ)
    (cont : ℕ → List α) : Prop where
  le_w : ∀ b < nb, firstSlot B bss b ≤ W b
  w_le : ∀ b < nb, W b ≤ firstSlot B bss (b + 1)
  e_le : ∀ b < nb, E b ≤ firstSlot B bss (b + 1)
  e_le_n : ∀ b < nb, (firstSlot B bss b : ℤ) < E b → E b ≤ (n / B : ℕ)
  slot : ∀ b < nb, ∀ k, firstSlot B bss b ≤ k → k < firstSlot B bss (b + 1) →
    SlotHas B nb key (W b) (E b) b k (cont k)
  outside : ∀ k, firstSlot B bss nb ≤ k → cont k = []

section
variable {B n nb : ℕ} {bss : ℕ → ℕ} {key : α → ℕ} {W : ℕ → ℕ} {E : ℕ → ℤ} {cont : ℕ → List α}
  {held : List α} {b c k : ℕ}

theorem firstSlot_mul (b : ℕ) : firstSlot B bss b * B = alignToNextBlock B (bss b) :=
  Nat.div_mul_cancel (dvd_alignToNextBlock B _)

theorem firstSlot_mono (h : Boundaries false nb n bss) (hB : 1 ≤ B) (hbc : b ≤ c) (hc : c ≤ nb) :
    firstSlot B bss b ≤ firstSlot B bss c :=
  Nat.div_le_div_right (alignToNextBlock_mono hB (h.mono hbc hc))

theorem firstSlot_le (h : Boundaries false nb n bss) (hB : 1 ≤ B) (hb : b ≤ nb) :
    firstSlot B bss b ≤ n / B + 1 := by
  have hle : alignToNextBlock B (bss b) ≤ (n / B + 1) * B := by
    refine (alignToNextBlock_le_iff hB (Dvd.intro_left _ rfl)).mpr ?_
    have h₁ := (h.mono hb le_rfl).trans h.last.le
    have h₂ := Nat.div_add_mod n B
    have h₃ := Nat.mod_lt n (show 0 < B by omega)
    rw [Nat.succ_mul, Nat.mul_comm]
    omega
  exact Nat.div_le_of_le_mul (by rwa [Nat.mul_comm])

/-- A slot is in one bucket. -/
theorem slot_bucket (h : Boundaries false nb n bss) (hB : 1 ≤ B) (hb : b < nb) (hc : c < nb)
    (h₁ : firstSlot B bss b ≤ k) (h₂ : k < firstSlot B bss (b + 1)) (h₃ : firstSlot B bss c ≤ k)
    (h₄ : k < firstSlot B bss (c + 1)) : b = c := by
  rcases lt_trichotomy b c with hlt | heq | hlt
  · have := firstSlot_mono h hB (show b + 1 ≤ c from hlt) hc.le
    omega
  · exact heq
  · have := firstSlot_mono h hB (show c + 1 ≤ b from hlt) hb.le
    omega

/-- Every slot is in a bucket, or there is nothing in it. -/
theorem exists_slot_bucket (h : Boundaries false nb n bss) (hB : 1 ≤ B)
    (hk : k < firstSlot B bss nb) :
    ∃ b < nb, firstSlot B bss b ≤ k ∧ k < firstSlot B bss (b + 1) := by
  have hslots : Boundaries false nb (firstSlot B bss nb) (firstSlot B bss) :=
    ⟨h.pos, by rw [firstSlot, h.zero, alignToNextBlock_of_dvd hB (Nat.dvd_zero B), Nat.zero_div],
      rfl, fun b hb => firstSlot_mono h hB (Nat.le_succ b) hb, nofun⟩
  exact hslots.exists_bucket hk

theorem SlotHas.placed {w : ℕ} {e : ℤ} {l : List α} (h : SlotHas B nb key w e b k l) (hk : k < w) :
    IsBlock B key b l := by
  rwa [SlotHas, if_pos hk] at h

theorem SlotHas.unread {w : ℕ} {e : ℤ} {l : List α} (h : SlotHas B nb key w e b k l) (hk : w ≤ k)
    (he : (k : ℤ) < e) : ∃ c < nb, IsBlock B key c l := by
  rwa [SlotHas, if_neg (by omega), if_pos he] at h

theorem SlotHas.empty {w : ℕ} {e : ℤ} {l : List α} (h : SlotHas B nb key w e b k l) (hk : w ≤ k)
    (he : e ≤ k) : l = [] := by
  rwa [SlotHas, if_neg (by omega), if_neg (by omega)] at h

theorem SlotHas.length_le {w : ℕ} {e : ℤ} {l : List α} (h : SlotHas B nb key w e b k l) :
    l.length ≤ B := by
  rw [SlotHas] at h
  split_ifs at h
  · exact h.length.le
  · obtain ⟨c, -, hc⟩ := h
    exact hc.length.le
  · rw [h]
    exact Nat.zero_le B

/-- No slot holds more than a block. -/
theorem Slots.length_le (h : Boundaries false nb n bss) (hB : 1 ≤ B)
    (hs : Slots B n nb bss key W E cont) (k : ℕ) : (cont k).length ≤ B := by
  rcases Nat.lt_or_ge k (firstSlot B bss nb) with hlt | hge
  · obtain ⟨b, hb, hk₁, hk₂⟩ := exists_slot_bucket h hB hlt
    exact (hs.slot b hb k hk₁ hk₂).length_le
  · rw [hs.outside k hge]
    exact Nat.zero_le B

/-- One bucket changes. -/
theorem Slots.change (h : Boundaries false nb n bss) (hB : 1 ≤ B)
    (hs : Slots B n nb bss key W E cont) (hb : b < nb) {W' : ℕ → ℕ} {E' : ℕ → ℤ}
    {cont' : ℕ → List α} (hW : ∀ c < nb, c ≠ b → W' c = W c) (hE : ∀ c < nb, c ≠ b → E' c = E c)
    (hcont : ∀ k, ¬ (firstSlot B bss b ≤ k ∧ k < firstSlot B bss (b + 1)) → cont' k = cont k)
    (h₁ : firstSlot B bss b ≤ W' b) (h₂ : W' b ≤ firstSlot B bss (b + 1)) (h₃ : E' b ≤ E b)
    (hslot : ∀ k, firstSlot B bss b ≤ k → k < firstSlot B bss (b + 1) →
    SlotHas B nb key (W' b) (E' b) b k (cont' k)) : Slots B n nb bss key W' E' cont' := by
  refine ⟨fun c hc => ?_, fun c hc => ?_, fun c hc => ?_, fun c hc => ?_,
    fun c hc k hk₁ hk₂ => ?_, fun k hk => ?_⟩
  · rcases eq_or_ne c b with rfl | hcb
    · exact h₁
    · rw [hW c hc hcb]
      exact hs.le_w c hc
  · rcases eq_or_ne c b with rfl | hcb
    · exact h₂
    · rw [hW c hc hcb]
      exact hs.w_le c hc
  · rcases eq_or_ne c b with rfl | hcb
    · exact h₃.trans (hs.e_le c hc)
    · rw [hE c hc hcb]
      exact hs.e_le c hc
  · rcases eq_or_ne c b with rfl | hcb
    · exact fun hlt => h₃.trans (hs.e_le_n c hc (hlt.trans_le h₃))
    · rw [hE c hc hcb]
      exact hs.e_le_n c hc
  · rcases eq_or_ne c b with rfl | hcb
    · exact hslot k hk₁ hk₂
    · rw [hW c hc hcb, hE c hc hcb, hcont k fun hk => hcb
        (slot_bucket h hB hc hb hk₁ hk₂ hk.1 hk.2)]
      exact hs.slot c hc k hk₁ hk₂
  · have := firstSlot_mono h hB (show b + 1 ≤ nb from hb) le_rfl
    rw [hcont k (by omega)]
    exact hs.outside k hk

section
variable (h : Boundaries false nb n bss) (hB : 1 ≤ B) (hs : Slots B n nb bss key W E cont)
  (hb : b < nb)
include h hB hs hb

/-- A block is read: its slot is empty then. -/
theorem Slots.read (hk : (k : ℤ) + 1 = E b) (hw : W b ≤ k) :
    Slots B n nb bss key W (Function.update E b k) (Function.update cont k []) := by
  have h₁ := hs.le_w b hb
  have h₂ := hs.e_le b hb
  refine hs.change h hB hb (fun _ _ _ => rfl) (fun c _ hcb => Function.update_of_ne hcb ..)
    (fun k' hk' => Function.update_of_ne (by omega) ..) h₁ (hs.w_le b hb)
      (by rw [Function.update_self]; omega)
    fun k' hk₁ hk₂ => ?_
  have hslot := hs.slot b hb k' hk₁ hk₂
  rw [Function.update_self, SlotHas]
  rcases eq_or_ne k' k with rfl | hne
  · rw [if_neg (by omega), if_neg (by omega), Function.update_self]
  · rw [Function.update_of_ne hne]
    split_ifs with hlt hlt'
    · exact hslot.placed hlt
    · exact hslot.unread (by omega) (by omega)
    · exact hslot.empty (by omega) (by omega)

/-- There is no block to read. -/
theorem Slots.noBlock (hw : E b ≤ W b) :
    Slots B n nb bss key W (Function.update E b (E b - 1)) cont := by
  refine hs.change h hB hb (fun _ _ _ => rfl) (fun c _ hcb => Function.update_of_ne hcb ..)
    (fun _ _ => rfl) (hs.le_w b hb)
    (hs.w_le b hb) (by rw [Function.update_self]; omega) fun k hk₁ hk₂ => ?_
  have hslot := hs.slot b hb k hk₁ hk₂
  rw [Function.update_self, SlotHas]
  split_ifs with hlt hlt'
  · exact hslot.placed hlt
  · omega
  · exact hslot.empty (by omega) (by omega)

/-- A block is where it belongs. -/
theorem Slots.keep (hw : (W b : ℤ) < E b) (hblock : IsBlock B key b (cont (W b))) :
    Slots B n nb bss key (Function.update W b (W b + 1)) E cont := by
  have h₁ := hs.le_w b hb
  have h₂ := hs.e_le b hb
  refine hs.change h hB hb (fun c _ hcb => Function.update_of_ne hcb ..)
    (fun _ _ _ => rfl) (fun _ _ => rfl)
    (by rw [Function.update_self]; omega) (by rw [Function.update_self]; omega) le_rfl
      fun k hk₁ hk₂ => ?_
  have hslot := hs.slot b hb k hk₁ hk₂
  rw [Function.update_self, SlotHas]
  rcases eq_or_ne k (W b) with rfl | hne
  · rwa [if_pos (Nat.lt_succ_self _)]
  · split_ifs with hlt hlt'
    · exact hslot.placed (by omega)
    · exact hslot.unread (by omega) hlt'
    · exact hslot.empty (by omega) (by omega)

/-- A block is written where it belongs. -/
theorem Slots.put (hw : W b < firstSlot B bss (b + 1)) (hblock : IsBlock B key b held) :
    Slots B n nb bss key (Function.update W b (W b + 1)) E (Function.update cont (W b) held) := by
  have h₁ := hs.le_w b hb
  refine hs.change h hB hb (fun c _ hcb => Function.update_of_ne hcb ..) (fun _ _ _ => rfl)
    (fun k hk => Function.update_of_ne (by omega) ..) (by rw [Function.update_self]; omega)
    (by rw [Function.update_self]; omega) le_rfl fun k hk₁ hk₂ => ?_
  have hslot := hs.slot b hb k hk₁ hk₂
  rw [Function.update_self, SlotHas]
  rcases eq_or_ne k (W b) with rfl | hne
  · rwa [if_pos (Nat.lt_succ_self _), Function.update_self]
  · rw [Function.update_of_ne hne]
    split_ifs with hlt hlt'
    · exact hslot.placed (by omega)
    · exact hslot.unread (by omega) hlt'
    · exact hslot.empty (by omega) (by omega)

end

/-! ### Room for the blocks -/

/-- The blocks in the slots, and a block in a swap block, are `total`. -/
def Total (B n : ℕ) (cont : ℕ → List α) (held : List α) (total : Multiset α) : Prop :=
  ∑ k ∈ Finset.range (n / B + 1), (cont k : Multiset α) + (held : Multiset α) = total

theorem IsBlock.countP {l : List α} (hl : IsBlock B key b l) :
    (l.countP fun x => key x = b) = B := by
  rw [List.countP_eq_length.mpr (by simpa using hl.key), hl.length]

theorem IsBlock.ne_nil {l : List α} (hB : 1 ≤ B) (hl : IsBlock B key b l) : l ≠ [] := by
  rintro rfl
  have := hl.length
  simp only [List.length_nil] at this
  omega

/-- The blocks of a bucket that have been written. -/
theorem Slots.sum_placed (hs : Slots B n nb bss key W E cont) (hb : b < nb) :
    ∑ k ∈ Finset.Ico (firstSlot B bss b) (W b), (cont k).countP (fun x => key x = b) =
      (W b - firstSlot B bss b) * B := by
  have hall : ∀ k ∈ Finset.Ico (firstSlot B bss b) (W b),
      ((cont k).countP fun x => key x = b) = B := by
    intro k hk
    rw [Finset.mem_Ico] at hk
    exact ((hs.slot b hb k hk.1 (hk.2.trans_le (hs.w_le b hb))).placed hk.2).countP
  rw [Finset.sum_const_nat hall, Nat.card_Ico]

/-- The slots of a bucket are among all slots. -/
theorem Slots.Ico_subset (h : Boundaries false nb n bss) (hB : 1 ≤ B)
    (hs : Slots B n nb bss key W E cont) (hb : b < nb) :
    Finset.Ico (firstSlot B bss b) (W b) ⊆ Finset.range (n / B + 1) := by
  intro k hk
  have h₁ := hs.w_le b hb
  have h₂ := firstSlot_le h hB (show b + 1 ≤ nb from hb)
  rw [Finset.mem_Ico] at hk
  exact Finset.mem_range.mpr (by omega)

theorem Total.countP {total : Multiset α} (ht : Total B n cont held total) :
    (total.countP fun x => key x = b) =
      ∑ k ∈ Finset.range (n / B + 1), (cont k).countP (fun x => key x = b) + held.countP
        fun x => key x = b := by
  rw [← ht, Multiset.countP_add, Multiset.coe_countP, ← Multiset.coe_countPAddMonoidHom, map_sum]
  simp only [Multiset.coe_countPAddMonoidHom, Multiset.coe_countP]

/-- **There is room for the blocks of a bucket only.** -/
theorem Slots.room (h : Boundaries false nb n bss) (hB : 1 ≤ B) (hs : Slots B n nb bss key W E cont)
    {total : Multiset α} (ht : Total B n cont held total) (hb : b < nb) :
    (W b - firstSlot B bss b) * B + (held.countP fun x => key x = b) ≤ total.countP
    fun x => key x = b := by
  rw [ht.countP, ← hs.sum_placed hb]
  exact Nat.add_le_add_right (Finset.sum_le_sum_of_subset (hs.Ico_subset h hB hb)) _

/-- So there is a slot for another one. -/
theorem Slots.w_lt (h : Boundaries false nb n bss) (hB : 1 ≤ B) (hs : Slots B n nb bss key W E cont)
    {total : Multiset α} (ht : Total B n cont held total) (hb : b < nb)
    (hheld : IsBlock B key b held) {f : ℕ} (hf : (total.countP fun x => key x = b) = f * B) :
    W b < firstSlot B bss b + f := by
  have hroom := hs.room h hB ht hb
  rw [hheld.countP, hf, ← Nat.succ_mul] at hroom
  have := Nat.le_of_mul_le_mul_right hroom (by omega)
  have := hs.le_w b hb
  omega

end

/-! ### The memory -/

/-- What the block permutation works on. -/
def permuteSpace (B n : ℕ) (p : Ptr Area) : Set (Loc Area) :=
  seg p n ∪ (seg (swapBlockAt false) B ∪ seg (swapBlockAt true) B) ∪ seg overflowBlock B

/-- The memory holds the slots; the one that reaches beyond the end of the range is the overflow
block. -/
structure InMemory (init : Bool) (B n : ℕ) (p : Ptr Area) (cont : ℕ → List α) (overflow : Bool)
    (m : Mem Area (Slot α)) : Prop where
  has : ∀ k < n / B, Has m (p + k * B) ((cont k).map .full)
  spare : Has m overflowBlock ((cont (n / B)).map .full)
  overflow : overflow = !(cont (n / B)).isEmpty
  ready : cont (n / B) = [] → Ready init m overflowBlock B
  live : Live m p n

section
variable {init : Bool} {B n nb k : ℕ} {p : Ptr Area} {cont : ℕ → List α} {o current : Bool}
  {m m' : Mem Area (Slot α)} {held : List α}

theorem swap_subset (current : Bool) : seg (swapBlockAt current) B ⊆ permuteSpace B n p := by
  cases current with
  | false => exact fun l hl => .inl (.inr (.inl hl))
  | true => exact fun l hl => .inl (.inr (.inr hl))

theorem overflow_subset : seg overflowBlock B ⊆ permuteSpace B n p := Set.subset_union_right

theorem slot_le (hk : k < n / B) : k * B + B ≤ n := by
  have := (Nat.mul_le_mul_right B (Nat.succ_le_of_lt hk)).trans (Nat.div_mul_le_self n B)
  rwa [Nat.succ_mul] at this

theorem slot_subset (hk : k < n / B) : seg (p + k * B) B ⊆ permuteSpace B n p :=
  fun _ hl => .inl (.inl (seg_subset (slot_le hk) hl))

/-- Different slots do not overlap. -/
theorem slot_notMem {k' i : ℕ} (hne : k ≠ k') (hi : i < B) :
    .elem (p + k * B + i) ∉ seg (p + k' * B) B := by
  simp only [elem_mem_seg, Ptr.add_arr, Ptr.add_off, true_and, not_and, not_lt]
  intro hle
  rcases Nat.lt_or_gt_of_ne hne with hlt | hgt
  · have := Nat.mul_le_mul_right B (Nat.succ_le_of_lt hlt)
    rw [Nat.succ_mul] at this
    omega
  · have := Nat.mul_le_mul_right B (Nat.succ_le_of_lt hgt)
    rw [Nat.succ_mul] at this
    omega

/-- One slot in the range changes. -/
theorem InMemory.change (h : InMemory init B n p cont o m) (hp : p.arr = .input) {l : List α}
    (hlen : ∀ k < n / B, (cont k).length ≤ B) (hk : k < n / B)
    (hf : Frame m m' (seg (swapBlockAt current) B ∪ seg (p + k * B) B))
    (hl : Has m' (p + k * B) (l.map .full)) (hlive : Live m' (p + k * B) B) :
    InMemory init B n p (Function.update cont k l) o m' := by
  have hover : ∀ i : ℕ, .elem (overflowBlock + i) ∉
      seg (swapBlockAt current) B ∪ seg (p + k * B) B := by
    rintro i (hmem | hmem)
    · exact notMem_seg_of_arr (by simp [overflowBlock, swapBlockAt]) hmem
    · exact notMem_seg_of_arr (by simp [overflowBlock, hp]) hmem
  have hswap : ∀ i : ℕ, .elem (p + i) ∉ seg (swapBlockAt current) B :=
    fun i => notMem_seg_of_arr (by simp [swapBlockAt, hp])
  have hne : n / B ≠ k := by omega
  refine ⟨fun k' hk' => ?_, ?_, ?_, ?_, fun i hi => ?_⟩
  · rcases eq_or_ne k' k with rfl | hkk
    · rwa [Function.update_self]
    · rw [Function.update_of_ne hkk]
      refine hf.has (h.has k' hk') ?_
      rintro i hi (hmem | hmem)
      · rw [Ptr.add_assoc] at hmem
        exact hswap _ hmem
      · exact slot_notMem hkk (hi.trans_le (hlen k' hk')) hmem
  · rw [Function.update_of_ne hne]
    exact hf.has h.spare fun i _ => hover i
  · rw [Function.update_of_ne hne]
    exact h.overflow
  · rw [Function.update_of_ne hne]
    exact fun hnil => hf.ready (h.ready hnil) fun i _ => hover i
  · by_cases hmem : .elem (p + i) ∈ seg (p + k * B) B
    · rw [elem_mem_seg] at hmem
      simp only [Ptr.add_off, Ptr.add_arr, true_and] at hmem
      have := hlive (i - k * B) (by omega)
      rwa [Ptr.add_assoc, Nat.add_sub_of_le (by omega)] at this
    · rw [hf _ fun h' => h'.elim (hswap i) hmem]
      exact h.live i hi

/-- The overflow block is written. -/
theorem InMemory.spill (h : InMemory init B n p cont o m) (hp : p.arr = .input) (hheld : held ≠ [])
    (hf : Frame m m' (seg (swapBlockAt current) B ∪ seg overflowBlock B))
    (hl : Has m' overflowBlock (held.map .full)) :
    InMemory init B n p (Function.update cont (n / B) held) true m' := by
  have hinput : ∀ i : ℕ, .elem (p + i) ∉ seg (swapBlockAt current) B ∪ seg overflowBlock B := by
    rintro i (hmem | hmem)
    · exact notMem_seg_of_arr (by simp [swapBlockAt, hp]) hmem
    · exact notMem_seg_of_arr (by simp [overflowBlock, hp]) hmem
  refine ⟨fun k hk => ?_, ?_, ?_, fun hnil => ?_, hf.live h.live fun i _ => hinput i⟩
  · rw [Function.update_of_ne (by omega)]
    refine hf.has (h.has k hk) fun i _ => ?_
    rw [Ptr.add_assoc]
    exact hinput _
  · rwa [Function.update_self]
  · simpa using hheld
  · rw [Function.update_self] at hnil
    exact absurd hnil hheld

end

end Ps4o.InPlace
