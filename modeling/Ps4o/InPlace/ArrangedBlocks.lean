import Mathlib.Algebra.BigOperators.Intervals
import Mathlib.Algebra.BigOperators.Ring.Finset
import Ps4o.InPlace.Cleanup

/-!
# Blocks between classification and cleanup

What the three steps of a partitioning in place hand on to each other, for one thread: blocks and
pointers, and the block in the overflow block.

## What is proved

* `Stored.permutes` — what local classification leaves behind is what the block permutation begins
  with: the pointers of the buckets are set so that every block has to be read, and there is room
  for the blocks of each bucket.
* `Arranged.filling` — what the block permutation leaves behind is what `writeMargins` begins with;
  the block in the overflow block belongs to the bucket that the code has computed for it
  (`Arranged.uses_iff`).
-/

namespace Ps4o.InPlace

open Ps4o.Program Ps4o.Storage Ps4o.Order

variable {α : Type}

/-! ### The blocks after classification -/

/-- What is in slot `k` when the blocks stand at the beginning. -/
def slotOf (blocks : List (List α)) (k : ℕ) : List α := blocks[k]?.getD []

/-- How many blocks bucket `b` has. -/
def fullBlocks (B : ℕ) (key : α → ℕ) (blocks : List (List α)) (b : ℕ) : ℕ :=
  (blocks.flatten.countP fun x => key x = b) / B

/-- The slot up to which the blocks of bucket `b` have to be read. -/
def readSlot (B : ℕ) (bss : ℕ → ℕ) (firstEmpty b : ℕ) : ℕ :=
  if firstEmpty ≤ firstSlot B bss b then firstSlot B bss b
  else if firstSlot B bss (b + 1) ≤ firstEmpty then firstSlot B bss (b + 1) else firstEmpty

section
variable {B n nb b k : ℕ} {key : α → ℕ} {blocks : List (List α)} {bss : ℕ → ℕ}
  {m : Mem Area (Slot α)} {p : Ptr Area}

theorem slotOf_of_le (h : blocks.length ≤ k) : slotOf blocks k = [] := by
  rw [slotOf, List.getElem?_eq_none h, Option.getD_none]

theorem slotOf_mem (h : k < blocks.length) : slotOf blocks k ∈ blocks := by
  rw [slotOf, List.getElem?_eq_getElem h, Option.getD_some]
  exact List.getElem_mem h

/-- The blocks before slot `k`. -/
theorem sum_slotOf (blocks : List (List α)) (k : ℕ) :
    ∑ j ∈ Finset.range k, (slotOf blocks j : Multiset α) =
      ((blocks.take k).flatten : Multiset α) := by
  induction k with
  | zero => simp
  | succ k ih =>
    rw [Finset.sum_range_succ, ih, List.take_add_one, List.flatten_append,
      ← Multiset.coe_add, slotOf]
    cases blocks[k]? with
    | none => simp
    | some l => simp

/-- Where the blocks are. -/
theorem has_slotOf (hlen : ∀ l ∈ blocks, l.length = B) (h : Has m p (blocks.flatten.map .full))
    (k : ℕ) : Has m (p + k * B) ((slotOf blocks k).map .full) := by
  rcases Nat.lt_or_ge k blocks.length with hk | hk
  · have hsplit : blocks = blocks.take k ++ slotOf blocks k :: blocks.drop (k + 1) := by
      rw [slotOf, List.getElem?_eq_getElem hk, Option.getD_some, ← List.drop_eq_getElem_cons hk,
        List.take_append_drop]
    have hbefore : (blocks.take k).flatten.length = k * B := by
      rw [length_flatten_blocks fun l hl => hlen l (List.mem_of_mem_take hl),
        List.length_take_of_le hk.le]
    rw [hsplit, List.flatten_append, List.flatten_cons, List.map_append,
      List.map_append, has_append, has_append, List.length_map, hbefore] at h
    exact h.2.1
  · rw [slotOf_of_le hk]
    exact has_nil

/-- The elements with a property, when some lists have only such elements, and the others have
none. -/
theorem filter_sum_eq {s t : Finset ℕ} {f : ℕ → List α} {q : α → Prop} [DecidablePred q]
    (hst : s ⊆ t) (hin : ∀ i ∈ s, ∀ x ∈ f i, q x) (hout : ∀ i ∈ t, i ∉ s → ∀ x ∈ f i, ¬ q x) :
    (∑ i ∈ t, (f i : Multiset α)).filter q = ∑ i ∈ s, (f i : Multiset α) := by
  let filter : Multiset α →+ Multiset α :=
    ⟨⟨Multiset.filter q, Multiset.filter_zero q⟩, Multiset.filter_add q⟩
  have hsum : (∑ i ∈ t, (f i : Multiset α)).filter q = ∑ i ∈ t, (f i : Multiset α).filter q :=
    map_sum filter _ t
  rw [hsum, ← Finset.sum_subset hst fun i hi his => Multiset.filter_eq_nil.mpr
    fun x hx => hout i hi his x hx]
  exact Finset.sum_congr rfl fun i hi => Multiset.filter_eq_self.mpr fun x hx => hin i hi x hx

/-- Blocks have whole numbers of elements of each bucket. -/
theorem fullBlocks_mul (h : ∀ l ∈ blocks, ∃ c < nb, IsBlock B key c l) (b : ℕ) :
    (blocks.flatten.countP fun x => key x = b) = fullBlocks B key blocks b * B := by
  refine (Nat.div_mul_cancel ?_).symm
  induction blocks with
  | nil => simp
  | cons l blocks ih =>
    obtain ⟨c, -, hl⟩ := h l List.mem_cons_self
    rw [List.flatten_cons, List.countP_append]
    refine Nat.dvd_add ?_ (ih fun l hl => h l (List.mem_cons_of_mem _ hl))
    rcases eq_or_ne c b with rfl | hcb
    · rw [hl.countP]
    · rw [List.countP_eq_zero.mpr fun x hx => by simpa [hl.key x hx] using hcb]
      exact Nat.dvd_zero B

/-- A bucket starts behind the elements of all buckets before it. -/
theorem start_eq_sum (ks : List ℕ) (b : ℕ) : start ks b = ∑ c ∈ Finset.range b, ks.count c := by
  induction b with
  | zero => simp
  | succ b ih => rw [start_succ, ih, Finset.sum_range_succ]

/-- There are as many blocks as the buckets have. -/
theorem sum_fullBlocks (h : ∀ l ∈ blocks, ∃ c < nb, IsBlock B key c l) (hB : 1 ≤ B) :
    ∑ b ∈ Finset.range nb, fullBlocks B key blocks b = blocks.length := by
  have hlen : ∀ l ∈ blocks, l.length = B := fun l hl => by
    obtain ⟨c, -, hl⟩ := h l hl
    exact hl.length
  have hkeys : ∀ x ∈ blocks.flatten, key x < nb := fun x hx => by
    obtain ⟨l, hl, hxl⟩ := List.mem_flatten.mp hx
    obtain ⟨c, hc, hl⟩ := h l hl
    rwa [hl.key x hxl]
  have hcount : ∀ b, fullBlocks B key blocks b * B = (blocks.flatten.map key).count b := fun b => by
    rw [← fullBlocks_mul h, List.count, List.countP_map]
    rfl
  refine Nat.eq_of_mul_eq_mul_right (show 0 < B by omega) ?_
  rw [← length_flatten_blocks hlen, Finset.sum_mul,
    Finset.sum_congr rfl fun b _ => hcount b, ← start_eq_sum,
    start_eq_length fun c hc => ?_, List.length_map]
  obtain ⟨x, hx, rfl⟩ := List.mem_map.mp hc
  exact hkeys x hx

/-- All slots with blocks have to be read. -/
theorem lt_readSlot {firstEmpty : ℕ} (hk₁ : firstSlot B bss b ≤ k)
    (hk₂ : k < firstSlot B bss (b + 1)) : k < readSlot B bss firstEmpty b ↔ k < firstEmpty := by
  rw [readSlot]
  split_ifs <;> omega

/-- **The pointers** of a bucket, in slots. -/
theorem setPointers_eq {s : Sorter α} {firstEmpty : ℕ} (hB : 1 ≤ B) (hb : b < s.numBuckets) :
    (setPointers B (firstEmpty * B) s).data.bucketPointers b =
      .set ((firstSlot B s.bucketStart b : ℤ) * B)
        ((readSlot B s.bucketStart firstEmpty b - 1 : ℤ) * B) := by
  simp only [setPointers, if_pos hb, ← firstSlot_mul,
    Nat.mul_le_mul_right_iff (show 0 < B by omega)]
  have hread : (if firstEmpty ≤ firstSlot B s.bucketStart b then firstSlot B s.bucketStart b * B
      else if firstSlot B s.bucketStart (b + 1) ≤ firstEmpty
        then firstSlot B s.bucketStart (b + 1) * B
        else firstEmpty * B) = readSlot B s.bucketStart firstEmpty b * B := by
    rw [readSlot]
    split_ifs <;> rfl
  rw [hread, Int.sub_mul, Int.one_mul]
  push_cast
  rfl

/-! ### From classification to block permutation -/

variable {init : Bool} {kMaxBuckets : ℕ} {xs : List α} {buffers : Buffers} {buf : ℕ → List α}
  (hs : Stored init B nb kMaxBuckets key p xs buffers m blocks buf)
include hs

theorem Stored.length (l : List α) (hl : l ∈ blocks) : l.length = B := by
  obtain ⟨c, -, hc⟩ := hs.block l hl
  exact hc.length

/-- The blocks are in the range. -/
theorem Stored.length_le : blocks.length * B ≤ xs.length := by
  have hcard := congrArg Multiset.card hs.all
  rw [Multiset.card_add, Multiset.coe_card, Multiset.coe_card, length_flatten_blocks hs.length]
    at hcard
  omega

/-- The elements of a bucket are in its blocks and in its buffer. -/
theorem Stored.filter_eq (hb : b < nb) :
    (blocks.flatten : Multiset α).filter (fun x => key x = b) + (buf b : Multiset α) =
      (xs : Multiset α).filter fun x => key x = b := by
  rw [← hs.all, Multiset.filter_add, Multiset.add_right_inj]
  have hbuf : (∑ c ∈ Finset.range nb, (buf c : Multiset α)).filter (fun x => key x = b) =
      ∑ c ∈ {b}, (buf c : Multiset α) := by
    refine filter_sum_eq (Finset.singleton_subset_iff.mpr (Finset.mem_range.mpr hb))
      (fun c hc x hx => ?_) fun c _ hc x hx hxb => ?_
    · rw [hs.keyed c x hx, Finset.mem_singleton.mp hc]
    · rw [← hxb, hs.keyed c x hx, Finset.mem_singleton] at hc
      exact hc rfl
  rw [hbuf, Finset.sum_singleton]

/-- How large a bucket is. -/
theorem Stored.count (hb : b < nb) :
    (xs.map key).count b = fullBlocks B key blocks b * B + (buf b).length := by
  have hcard := congrArg Multiset.card (hs.filter_eq hb)
  rw [Multiset.card_add, ← Multiset.countP_eq_card_filter, ← Multiset.countP_eq_card_filter,
    Multiset.coe_countP, Multiset.coe_countP, Multiset.coe_card, fullBlocks_mul hs.block] at hcard
  rw [hcard, List.count, List.countP_map]
  rfl

/-- A bucket that has blocks has elements in its buffer. -/
theorem Stored.buf_ne_nil (hb : 1 ≤ fullBlocks B key blocks b) (hB : 1 ≤ B) : buf b ≠ [] := by
  have hpos : 0 < blocks.flatten.countP fun x => key x = b := by
    rw [fullBlocks_mul hs.block]
    exact Nat.mul_pos hb hB
  obtain ⟨x, hx, hxb⟩ := List.countP_pos_iff.mp hpos
  obtain ⟨l, hl, hxl⟩ := List.mem_flatten.mp hx
  rw [← of_decide_eq_true hxb]
  exact hs.lazy l hl x hxl

variable (h : Boundaries false nb n bss) (hB : 1 ≤ B)
  (hsize : ∀ b < nb, bss (b + 1) = bss b + fullBlocks B key blocks b * B + (buf b).length)
include h hB hsize

omit h hsize in
/-- A fuel that is enough for the block permutation. -/
theorem Stored.sum_lt {fuel : ℕ} (hfuel : xs.length < fuel) :
    ∑ b ∈ Finset.range nb, (firstSlot B bss b + fullBlocks B key blocks b) <
      ∑ b ∈ Finset.range nb, firstSlot B bss b + fuel := by
  have hle := Nat.le_mul_of_pos_right blocks.length (show 0 < B by omega)
  have := hs.length_le
  rw [Finset.sum_add_distrib, sum_fullBlocks hs.block hB]
  omega

omit h in
/-- **There is room for the blocks** of a bucket. -/
theorem Stored.fits (hb : b < nb) :
    firstSlot B bss b + fullBlocks B key blocks b ≤ firstSlot B bss (b + 1) := by
  have hsize := hsize b hb
  refine Nat.le_of_mul_le_mul_right ?_ (show 0 < B by omega)
  rw [Nat.add_mul, firstSlot_mul, firstSlot_mul]
  rcases Nat.eq_zero_or_pos (fullBlocks B key blocks b) with h0 | hpos
  · rw [h0, Nat.zero_mul] at hsize ⊢
    exact alignToNextBlock_mono hB (by omega)
  · have hbuf := List.length_pos_iff.mpr (hs.buf_ne_nil hpos hB)
    have hlt := alignToNextBlock_lt hB (bss b)
    have hle := le_alignToNextBlock hB (bss (b + 1))
    refine le_of_lt_add (Nat.dvd_add (dvd_alignToNextBlock B _) (Dvd.intro_left _ rfl))
      (dvd_alignToNextBlock B _) ?_
    omega

omit hsize in
/-- **Block permutation can begin**: every block has to be read. -/
theorem Stored.permutes (hn : xs.length = n) {s : Pointers} (hover : s.overflow = false)
    (hw : ∀ b < nb, (s.bucketPointers b).w = (firstSlot B bss b : ℤ) * B)
    (hr : ∀ b < nb, (s.bucketPointers b).r = (readSlot B bss blocks.length b - 1 : ℤ) * B)
    (hready : Ready init m overflowBlock B) :
    Permutes init B n nb bss key p blocks.flatten s m (firstSlot B bss)
      (fun b => readSlot B bss blocks.length b) (slotOf blocks) [] := by
  have hle : blocks.length ≤ n / B :=
    (Nat.le_div_iff_mul_le (show 0 < B by omega)).mpr (hn ▸ hs.length_le)
  have hlast : slotOf blocks (n / B) = [] := slotOf_of_le hle
  have hend : n / B ≤ firstSlot B bss nb := by
    rw [firstSlot, h.last]
    exact Nat.div_le_div_right (le_alignToNextBlock hB n)
  refine ⟨hw, hr, ⟨fun b _ => le_rfl, fun b hb => ?_, fun b hb => ?_, fun b hb hlt => ?_,
    fun b hb k hk₁ hk₂ => ?_,
    fun k hk => slotOf_of_le (by omega)⟩,
    ⟨fun k _ => has_slotOf hs.length hs.has k, ?_, ?_, fun _ => hready, ?_⟩, ?_⟩
  · exact firstSlot_mono h hB (Nat.le_succ b) hb
  · have hmono : firstSlot B bss b ≤ firstSlot B bss (b + 1) :=
      firstSlot_mono h hB (Nat.le_succ b) hb
    simp only [readSlot]
    split_ifs <;> omega
  · simp only [readSlot] at hlt ⊢
    split_ifs at hlt ⊢ <;> omega
  · rw [SlotHas, if_neg (by omega)]
    simp only [Nat.cast_lt, lt_readSlot hk₁ hk₂]
    split_ifs with hlt
    · exact hs.block _ (slotOf_mem hlt)
    · exact slotOf_of_le (by omega)
  · rw [hlast]
    exact has_nil
  · rw [hlast, hover]
    rfl
  · exact hn ▸ hs.live
  · rw [Total, sum_slotOf, Multiset.coe_nil, add_zero, List.take_of_length_le (by omega)]

end

/-! ### From block permutation to the margins -/

/-- What is in the `k` slots from slot `a` on. -/
def slotsFrom (cont : ℕ → List α) (a k : ℕ) : List α := (List.range' a k).flatMap cont

/-- Whether a bucket with `f` blocks has one in the overflow block. -/
def usesOverflow (B n : ℕ) (bss f : ℕ → ℕ) (b : ℕ) : Bool :=
  firstSlot B bss b ≤ n / B ∧ n / B < firstSlot B bss b + f b

/-- The elements in the slots of a bucket in the array. -/
def mainOf (B n : ℕ) (bss f : ℕ → ℕ) (cont : ℕ → List α) (b : ℕ) : List α :=
  slotsFrom cont (firstSlot B bss b) (min (firstSlot B bss b + f b) (n / B) - firstSlot B bss b)

/-- Those in the overflow block. -/
def lastOf (B n : ℕ) (bss f : ℕ → ℕ) (cont : ℕ → List α) (b : ℕ) : List α :=
  if usesOverflow B n bss f b then cont (n / B) else []

section
variable {B n nb a k b : ℕ} {bss f : ℕ → ℕ} {cont : ℕ → List α} {m : Mem Area (Slot α)}
  {p : Ptr Area}

theorem slotsFrom_succ (cont : ℕ → List α) (a k : ℕ) :
    slotsFrom cont a (k + 1) = slotsFrom cont a k ++ cont (a + k) := by
  rw [slotsFrom, List.range'_concat, List.flatMap_append, List.flatMap_singleton, Nat.one_mul]
  rfl

theorem length_slotsFrom (h : ∀ j < k, (cont (a + j)).length = B) :
    (slotsFrom cont a k).length = k * B := by
  induction k with
  | zero => rw [Nat.zero_mul]; rfl
  | succ k ih =>
    rw [slotsFrom_succ, List.length_append, ih fun j hj => h j (Nat.lt_succ_of_lt hj),
      h k (Nat.lt_succ_self k), Nat.succ_mul]

theorem coe_slotsFrom (cont : ℕ → List α) (a k : ℕ) :
    (slotsFrom cont a k : Multiset α) = ∑ j ∈ Finset.Ico a (a + k), (cont j : Multiset α) := by
  induction k with
  | zero => rw [Nat.add_zero, Finset.Ico_self]; rfl
  | succ k ih =>
    rw [slotsFrom_succ, ← Multiset.coe_add, ih, ← Nat.add_assoc,
      Finset.sum_Ico_succ_top (Nat.le_add_right a k)]

theorem has_slotsFrom (hlen : ∀ j < k, (cont (a + j)).length = B)
    (h : ∀ j < k, Has m (p + (a + j) * B) ((cont (a + j)).map .full)) :
    Has m (p + a * B) ((slotsFrom cont a k).map .full) := by
  induction k with
  | zero => exact has_nil
  | succ k ih =>
    have hlen' : ∀ j < k, (cont (a + j)).length = B := fun j hj => hlen j (Nat.lt_succ_of_lt hj)
    rw [slotsFrom_succ, List.map_append, has_append, List.length_map, length_slotsFrom hlen',
      Ptr.add_assoc, ← Nat.add_mul]
    exact ⟨ih hlen' fun j hj => h j (Nat.lt_succ_of_lt hj), h k (Nat.lt_succ_self k)⟩

/-- Together, they are what is in the slots of the bucket. -/
theorem coe_main_last (hf : firstSlot B bss b + f b ≤ n / B + 1) :
    (mainOf B n bss f cont b ++ lastOf B n bss f cont b : Multiset α) =
      ∑ k ∈ Finset.Ico (firstSlot B bss b) (firstSlot B bss b + f b), (cont k : Multiset α) := by
  rw [← Multiset.coe_add, mainOf, coe_slotsFrom, lastOf]
  by_cases ho : firstSlot B bss b ≤ n / B ∧ n / B < firstSlot B bss b + f b
  · rw [usesOverflow, if_pos (decide_eq_true ho), show firstSlot B bss b + f b = n / B + 1 by omega,
      Nat.min_eq_right (Nat.le_succ _), Nat.add_sub_of_le ho.1, Finset.sum_Ico_succ_top ho.1]
  · rw [usesOverflow, if_neg (by simpa using ho), Multiset.coe_nil, add_zero]
    rcases Nat.lt_or_ge (n / B) (firstSlot B bss b) with hlt | hge
    · rw [Finset.Ico_eq_empty_of_le (by omega), Finset.Ico_eq_empty_of_le (by omega)]
    · rw [Nat.min_eq_left (by omega), Nat.add_sub_cancel_left]

/-- The last bucket with more than one block's worth of elements. -/
theorem computeOverflowBucket_eq (hb : b < nb) (hlt : B < bss (b + 1) - bss b)
    (hlast : ∀ c, b < c → c < nb → bss (c + 1) - bss c ≤ B) :
    computeOverflowBucket B bss nb = some b := by
  induction nb with
  | zero => omega
  | succ nb ih =>
    rw [computeOverflowBucket]
    rcases Nat.lt_succ_iff_lt_or_eq.mp hb with hlt' | rfl
    · rw [if_pos (hlast nb hlt' (Nat.lt_succ_self nb))]
      exact ih hlt' fun c hc hcn => hlast c hc (Nat.lt_succ_of_lt hcn)
    · rw [if_neg (by omega)]

end

/-- Every bucket `b` has its `f b` blocks in its slots, and there is nothing in any other slot. -/
structure Arranged (B nb : ℕ) (bss : ℕ → ℕ) (key : α → ℕ) (f : ℕ → ℕ) (cont : ℕ → List α) :
    Prop where
  fits : ∀ b < nb, firstSlot B bss b + f b ≤ firstSlot B bss (b + 1)
  block : ∀ b < nb, ∀ k, firstSlot B bss b ≤ k → k < firstSlot B bss b + f b →
    IsBlock B key b (cont k)
  empty : ∀ k, (∀ b < nb, ¬ (firstSlot B bss b ≤ k ∧ k < firstSlot B bss b + f b)) → cont k = []

section
variable {init : Bool} {B n nb b : ℕ} {bss f : ℕ → ℕ} {key : α → ℕ} {p : Ptr Area}
  {total : Multiset α} {m : Mem Area (Slot α)} {cont : ℕ → List α}

/-- Nothing is left to be read. -/
theorem Permutes.arranged {s : Pointers} {W : ℕ → ℕ} {E : ℕ → ℤ}
    (hs : Permutes init B n nb bss key p total s m W E cont []) (h : Boundaries false nb n bss)
    (hB : 1 ≤ B) (hdone : ∀ b < nb, E b ≤ W b)
    (hf : ∀ b < nb, (total.countP fun x => key x = b) = f b * B)
    (hfits : ∀ b < nb, firstSlot B bss b + f b ≤ firstSlot B bss (b + 1)) :
    Arranged B nb bss key f cont := by
  have hw : ∀ b < nb, W b = firstSlot B bss b + f b := fun b hb => hs.w_eq h hB hf hdone hb
  refine ⟨hfits, fun b hb k hk₁ hk₂ => ?_, fun k hk => ?_⟩
  · have hfit := hfits b hb
    exact (hs.slots.slot b hb k hk₁ (by omega)).placed (by rwa [hw b hb])
  · rcases Nat.lt_or_ge k (firstSlot B bss nb) with hlt | hge
    · obtain ⟨b, hb, hk₁, hk₂⟩ := exists_slot_bucket h hB hlt
      have hnot : firstSlot B bss b + f b ≤ k := Nat.le_of_not_lt fun hlt => hk b hb ⟨hk₁, hlt⟩
      have hdone := hdone b hb
      rw [hw b hb] at hdone
      exact (hs.slots.slot b hb k hk₁ hk₂).empty (by rwa [hw b hb]) (by omega)
    · exact hs.slots.outside k hge

variable (ha : Arranged B nb bss key f cont) (h : Boundaries false nb n bss) (hB : 1 ≤ B)
include ha h hB

/-- No slot is beyond the overflow block. -/
theorem Arranged.le (hb : b < nb) : firstSlot B bss b + f b ≤ n / B + 1 :=
  (ha.fits b hb).trans (firstSlot_le h hB hb)

/-- The elements of a bucket. -/
theorem Arranged.filter_eq (hall : Total B n cont [] total) (hb : b < nb) :
    total.filter (fun x => key x = b) =
      (mainOf B n bss f cont b ++ lastOf B n bss f cont b : Multiset α) := by
  have hle := ha.le h hB hb
  rw [coe_main_last hle, ← hall, Multiset.coe_nil, add_zero]
  refine filter_sum_eq (fun k hk => ?_) (fun k hk => ?_) fun k _ hk x hx hxb => ?_
  · rw [Finset.mem_Ico] at hk
    exact Finset.mem_range.mpr (by omega)
  · rw [Finset.mem_Ico] at hk
    exact (ha.block b hb k hk.1 hk.2).key
  · by_cases hc : ∃ c < nb, firstSlot B bss c ≤ k ∧ k < firstSlot B bss c + f c
    · obtain ⟨c, hc, hk₁, hk₂⟩ := hc
      rw [(ha.block c hc k hk₁ hk₂).key x hx] at hxb
      subst hxb
      exact hk (Finset.mem_Ico.mpr ⟨hk₁, hk₂⟩)
    · rw [ha.empty k fun c hcn hk => hc ⟨c, hcn, hk⟩] at hx
      exact absurd hx List.not_mem_nil

/-- **The overflow bucket**: the block in the overflow block belongs to the last bucket with more
elements than one block. -/
theorem Arranged.uses_iff {buf : ℕ → List α} {overflow : Bool}
    (hover : overflow = !(cont (n / B)).isEmpty)
    (hsize : ∀ b < nb, bss (b + 1) = bss b + f b * B + (buf b).length)
    (hlazy : ∀ b < nb, 1 ≤ f b → buf b ≠ []) (hb : b < nb) :
    usesOverflow B n bss f b = true ↔ some b = computeOverflowBucket B bss nb ∧
    overflow = true := by
  have hn := Nat.div_add_mod' n B
  have hmod := Nat.mod_lt n (show 0 < B by omega)
  have hbucket : ∀ c < nb, usesOverflow B n bss f c = true →
      computeOverflowBucket B bss nb = some c := by
    intro c hc huses
    obtain ⟨hk₁, hk₂⟩ := of_decide_eq_true huses
    have hfc : 1 ≤ f c := by omega
    have hone := Nat.mul_le_mul_right B hfc
    have hbuf := List.length_pos_iff.mpr (hlazy c hc hfc)
    have hsize := hsize c hc
    refine computeOverflowBucket_eq hc (by omega) fun d hd hdn => ?_
    -- all later buckets begin in the last block
    have hfar : ¬ alignToNextBlock B (bss (c + 1)) ≤ n / B * B := by
      rw [← firstSlot_mul]
      have := Nat.mul_le_mul_right B (show n / B + 1 ≤ firstSlot B bss (c + 1)
        from (Nat.succ_le_of_lt hk₂).trans (ha.fits c hc))
      rw [Nat.succ_mul] at this
      omega
    rw [alignToNextBlock_le_iff hB (Dvd.intro_left _ rfl)] at hfar
    have hlate := h.mono (show c + 1 ≤ d from hd) hdn.le
    have hend := h.end_le hdn
    omega
  constructor
  · intro huses
    obtain ⟨hk₁, hk₂⟩ := of_decide_eq_true huses
    refine ⟨(hbucket b hb huses).symm, ?_⟩
    rw [hover]
    simpa using (ha.block b hb _ hk₁ hk₂).ne_nil hB
  · rintro ⟨hcomp, hover'⟩
    by_contra hno
    rw [hover, Bool.not_eq_true', List.isEmpty_eq_false_iff] at hover'
    refine hover' (ha.empty _ fun c hc hk => hno ?_)
    have huses : usesOverflow B n bss f c = true := decide_eq_true hk
    have := hcomp.trans (hbucket c hc huses)
    rwa [Option.some.inj this]

end

section
variable {init : Bool} {B n nb b : ℕ} {f : ℕ → ℕ} {key : α → ℕ} {p : Ptr Area}
  {m : Mem Area (Slot α)} {cont : ℕ → List α} {s : Sorter α} {buf : List α}

/-- **Filling the margins can begin.** -/
theorem Arranged.parts (ha : Arranged B nb s.bucketStart key f cont)
    (h : Boundaries false nb n s.bucketStart) (hB : 1 ≤ B)
    (hmem : InMemory init B n p cont s.overflow m) (hb : b < nb)
    (hw : (s.data.bucketPointers b).w = ((firstSlot B s.bucketStart b + f b : ℕ) : ℤ) * B)
    (hsize : s.bucketStart (b + 1) = s.bucketStart b + f b * B + buf.length)
    (hlazy : 1 ≤ f b → buf ≠ []) (hbuf : s.data.buffers.Holds init B m b buf) :
    Parts init B n p s m b (f b) (usesOverflow B n s.bucketStart f b)
      (mainOf B n s.bucketStart f cont b) (lastOf B n s.bucketStart f cont b) buf := by
  have hle := ha.le h hB hb
  have hblock := ha.block b hb
  have hmain : (mainOf B n s.bucketStart f cont b).length =
      (min (firstSlot B s.bucketStart b + f b) (n / B) - firstSlot B s.bucketStart b) * B :=
    length_slotsFrom fun j hj => (hblock _ (Nat.le_add_right _ _) (by omega)).length
  have hn : n < (n / B + 1) * B := by
    have := Nat.div_add_mod' n B
    have := Nat.mod_lt n (show 0 < B by omega)
    rw [Nat.succ_mul]
    omega
  refine ⟨?_, hsize, h.end_le hb, hlazy, hbuf, ?_, hmem.live, fun ho => ?_, fun ho => ?_⟩
  · rw [hw, ← firstSlot_mul, ← Nat.add_mul]
    push_cast
    rfl
  · rw [← firstSlot_mul]
    exact has_slotsFrom (fun j hj => (hblock _ (Nat.le_add_right _ _) (by omega)).length)
      fun j hj => hmem.has _ (by omega)
  · rw [lastOf, ho]
    have hno : ¬ (firstSlot B s.bucketStart b ≤ n / B ∧ n / B < firstSlot B s.bucketStart b +
      f b) := of_decide_eq_false ho
    refine ⟨rfl, ?_, fun hpos => ?_⟩
    · rw [hmain]
      congr 1
      omega
    · rw [← firstSlot_mul, ← Nat.add_mul]
      exact (Nat.mul_le_mul_right B (by omega)).trans (Nat.div_mul_le_self n B)
  · obtain ⟨hk₁, hk₂⟩ := of_decide_eq_true ho
    have hslots : firstSlot B s.bucketStart b + f b = n / B + 1 := by omega
    rw [lastOf, ho]
    refine ⟨(hblock _ hk₁ hk₂).length, ?_, ?_, hmem.spare⟩
    · rw [hmain, ← Nat.succ_mul]
      congr 1
      omega
    · rwa [← firstSlot_mul, ← Nat.add_mul, hslots]

end

section
variable {init : Bool} {B n nb kMaxBuckets : ℕ} {f : ℕ → ℕ} {key : α → ℕ} {p : Ptr Area}
  {m : Mem Area (Slot α)} {cont buf : ℕ → List α} {s : Sorter α}

/-- So no margin has been filled. -/
theorem Arranged.filling (ha : Arranged B nb s.bucketStart key f cont)
    (h : Boundaries false nb n s.bucketStart) (hB : 1 ≤ B)
    (hmem : InMemory init B n p cont s.overflow m)
    (hw : ∀ b < nb, (s.data.bucketPointers b).w = ((firstSlot B s.bucketStart b + f b : ℕ) : ℤ) * B)
    (hsize : ∀ b < nb, s.bucketStart (b + 1) = s.bucketStart b + f b * B + (buf b).length)
    (hlazy : ∀ b < nb, 1 ≤ f b → buf b ≠ [])
    (hbuf : ∀ b < kMaxBuckets, s.data.buffers.Holds init B m b (buf b)) (hnb : nb ≤ kMaxBuckets)
    (hnone : ∀ b, nb ≤ b → buf b = []) :
    Filling init B n nb kMaxBuckets p s f (usesOverflow B n s.bucketStart f)
      (mainOf B n s.bucketStart f cont)
        (lastOf B n s.bucketStart f cont) buf 0 s m fun _ => [] where
  same := rfl
  parts b _ hb := ha.parts h hB hmem hb (hw b hb) (hsize b hb) (hlazy b hb)
    (hbuf b (hb.trans_le hnb))
  done := nofun
  empty b hb hb' := by
    have := hbuf b hb
    rwa [hnone b (hb'.resolve_left (Nat.not_lt_zero b))] at this
  spare hno := hmem.ready (ha.empty _ fun b hb => of_decide_eq_false (hno b (Nat.zero_le b) hb))
  live := hmem.live

end

end Ps4o.InPlace
