import Mathlib.Tactic.Ring
import Ps4o.InPlace.BlockPermutation
import Ps4o.InPlace.Buffers
import Ps4o.Order.Compaction
import Ps4o.Program.Team

/-!
# Empty blocks

When several threads classify, each of them leaves full blocks at the front of its stripe and empty
blocks behind them. The block permutation wants this of every bucket instead: the threads move
blocks within those buckets that lie in more than one stripe, each of them to the empty blocks of
its own stripe, and set the pointers of the buckets that begin there (`moveEmptyBlocks` in
`empty_block_movement.hpp`).

## The model

Elements are moved one by one. What a thread knows of the others does not change: where their
stripes begin and where their first empty blocks are. Its results are the pointers that it sets. The
stripes are computed in the source with doubles; here they are exact.

## What is proved

* `Striped.taking_eq` — how many elements of full blocks there are before a position.
* `bucketRange_spec` — which buckets begin in a stripe.
* `overlap_eq` — **what a thread counts**: how many of the last blocks of its last bucket are for
  the threads before it, and where the bucket's first empty block will be.
* `pointersWithin_eq` — the pointers of a bucket that ends in the stripe it starts in.
-/

namespace Ps4o.InPlace

open Ps4o.Program Ps4o.Storage Ps4o.Order.Compaction

variable {α : Type}

/-! ### The code -/

/-- Where the stripe of thread `myId` begins: at the first block boundary from `myId * n /
numThreads + 0.5` on. -/
def stripeBegin (kBlockSize n numThreads myId : ℕ) : ℕ :=
  alignToNextBlock kBlockSize ((2 * myId * n + numThreads) / (2 * numThreads))

/-- Where it ends. -/
def stripeEnd (kBlockSize n numThreads myId : ℕ) : ℕ :=
  min n (stripeBegin kBlockSize n numThreads (myId + 1))

/-- Goes on from `i` as long as a condition holds, at most `fuel` times. -/
def advance (cond : ℕ → Bool) : (fuel i : ℕ) → ℕ
  | 0, i => i
  | fuel + 1, i => if cond i then advance cond fuel (i + 1) else i

section
variable (kBlockSize numBuckets numThreads : ℕ) (bucketStart firstBlock firstEmptyBlock : ℕ → ℕ)
  (p : Ptr Area)

/-- The first bucket that starts in the stripe. -/
def bucketRangeStart (myBegin : ℕ) : ℕ :=
  advance (fun i => alignToNextBlock kBlockSize (bucketStart i) < myBegin) numBuckets 0

/-- Behind the last bucket that starts in the stripe. -/
def bucketRangeEnd (myId myEnd start : ℕ) : ℕ :=
  if myId = numThreads - 1 then numBuckets
  else advance (fun i => i < numBuckets ∧ alignToNextBlock kBlockSize (bucketStart i) < myEnd)
    (numBuckets - start) start

/-- The pointers of a bucket that ends in the stripe it starts in. -/
def pointersWithin (myFirstEmptyBlock b : ℕ) : BucketPointers :=
  let start := alignToNextBlock kBlockSize (bucketStart b)
  let stop := alignToNextBlock kBlockSize (bucketStart (b + 1))
  let read :=
    -- Bucket is completely empty
    if myFirstEmptyBlock ≤ start then start
    -- Bucket is partially empty
    else if myFirstEmptyBlock < stop then myFirstEmptyBlock
    else stop
  .set start (read - kBlockSize)

/-- Counts the filled blocks of a bucket, from the stripe of thread `prevId` down to the one where
the bucket starts. The first stripe begins at `0`. -/
def flushedBefore (start : ℕ) : (prevId : ℕ) → ℕ
  | 0 => firstEmptyBlock 0 - start
  | prevId + 1 =>
    if start < firstBlock (prevId + 1) then
      firstEmptyBlock (prevId + 1) - firstBlock (prevId + 1) + flushedBefore start prevId
    else
      firstEmptyBlock (prevId + 1) - start

/-- Finds the stripe which contains the last block of a bucket (off by one), and continues
counting. -/
def flushedAfter (bucketEnd : ℕ) : (fuel readFromThread flushed : ℕ) → ℕ × ℕ
  | 0, readFromThread, flushed => (readFromThread, flushed)
  | fuel + 1, readFromThread, flushed =>
    if readFromThread < numThreads ∧ firstBlock readFromThread < bucketEnd then
      let eb := min (firstEmptyBlock readFromThread) bucketEnd
      flushedAfter bucketEnd fuel (readFromThread + 1) (flushed + (eb - firstBlock readFromThread))
    else
      (readFromThread, flushed)

/-- Reads from other stripes until the blocks from `write` to `writeEnd` are filled. -/
def fillBlocks (bucketEnd : ℕ) :
    (readFromThread elementsReserved write writeEnd : ℕ) → Act Area α Unit
  | 0, _, write, writeEnd => if write < writeEnd then undefined else pure ()
  | readFromThread + 1, elementsReserved, write, writeEnd =>
    if write < writeEnd then
      -- This is the range of blocks we can read from stripe 'readFromThread'
      let read := min (firstEmptyBlock readFromThread) bucketEnd
      let readRangeSize := read - firstBlock readFromThread
      -- Skip reserved blocks
      if readRangeSize ≤ elementsReserved then
        fillBlocks bucketEnd readFromThread (elementsReserved - readRangeSize) write writeEnd
      else do
        let size := min (readRangeSize - elementsReserved) (writeEnd - write)
        moveRange (p + (read - elementsReserved - size)) (p + write) size
        fillBlocks bucketEnd readFromThread 0 (write + size) writeEnd
    else
      pure ()

/-- What a thread finds out about the bucket that overlaps the end of its stripe. -/
structure Overlap where
  /-- Where the bucket starts. -/
  start : ℕ
  /-- Threads to our left will move this many elements. -/
  elementsReserved : ℕ
  /-- The stripe which contains the last block of the bucket (off by one). -/
  readFromThread : ℕ
  /-- After moving blocks, this will be the first empty block in the bucket. -/
  firstEmptyBlockInBucket : ℕ

/-- Counts the blocks of the overlapping bucket. -/
def overlap (myId myBegin myFirstEmptyBlock overlappingBucket bucketEnd : ℕ) : Overlap :=
  let start := alignToNextBlock kBlockSize (bucketStart overlappingBucket)
  let before := if start < myBegin then flushedBefore firstBlock firstEmptyBlock start
    (myId - 1) else 0
  let elementsReserved := if start < myBegin then myBegin - start - before else 0
  let flushed :=
    if start < myBegin then before + (myFirstEmptyBlock - myBegin)
    else if start < myFirstEmptyBlock then before + (myFirstEmptyBlock - start)
    else before
  let after := flushedAfter numThreads firstBlock firstEmptyBlock bucketEnd
    (numThreads - (myId + 1)) (myId + 1) flushed
  ⟨start, elementsReserved, after.1, start + after.2⟩

/-- Moves empty blocks to establish the invariant: all buckets consist of full blocks followed by
empty blocks. Answers which pointers have been set. -/
def moveEmptyBlocks (myId myBegin myEnd myFirstEmptyBlock : ℕ) :
    Act Area α (List (ℕ × BucketPointers)) :=
  let start := bucketRangeStart kBlockSize numBuckets bucketStart myBegin
  let stop := bucketRangeEnd kBlockSize numBuckets numThreads bucketStart myId myEnd start
  -- Check if last bucket overlaps the end of the stripe
  let bucketEnd := alignToNextBlock kBlockSize (bucketStart stop)
  let within := fun l => (List.range' start (l - start)).map fun b =>
    (b, pointersWithin kBlockSize bucketStart myFirstEmptyBlock b)
  if myEnd < bucketEnd then do
    let overlappingBucket := stop - 1
    let o := overlap kBlockSize numThreads bucketStart firstBlock firstEmptyBlock
      myId myBegin myFirstEmptyBlock overlappingBucket bucketEnd
    fillBlocks firstBlock firstEmptyBlock p bucketEnd o.readFromThread o.elementsReserved
      (max myFirstEmptyBlock o.start) (min o.firstEmptyBlockInBucket myEnd)
    -- Set bucket pointers if the bucket starts in this stripe
    pure (within (stop - 1) ++
      if myBegin ≤ o.start then [(overlappingBucket,
        .set o.start (o.firstEmptyBlockInBucket - kBlockSize))] else [])
  else
    pure (within stop)

/-- The end of the parallel classification of `n` elements: a thread whose stripe is not empty moves
empty blocks. -/
def finishClassification (n myId : ℕ) : Act Area α (List (ℕ × BucketPointers)) :=
  let myBegin := stripeBegin kBlockSize n numThreads myId
  let myEnd := stripeEnd kBlockSize n numThreads myId
  if myEnd ≤ myBegin then
    pure []
  else
    moveEmptyBlocks kBlockSize numBuckets numThreads bucketStart
      (stripeBegin kBlockSize n numThreads) firstEmptyBlock p myId
      myBegin myEnd (firstEmptyBlock myId)

/-- All threads do so, and meet. -/
def moveAllEmptyBlocks (n : ℕ) :
    Team (Cmd Area α) Cmd.Ans (Fin numThreads) (List (ℕ × BucketPointers)) :=
  .stage (fun i : Fin numThreads => finishClassification kBlockSize numBuckets numThreads
    bucketStart firstEmptyBlock p n i) fun pointers => .done (List.ofFn pointers).flatten

end

/-! ### Stripes -/

/-- The stripes of `t` threads, from `bd j` to `bd (j + 1)`, have full blocks up to `feb j`. -/
structure Striped (B n t : ℕ) (bd feb : ℕ → ℕ) : Prop where
  zero : bd 0 = 0
  last : bd t = n
  lt : ∀ j < t, bd j < bd (j + 1)
  dvd : ∀ j < t, B ∣ bd j
  begin_le : ∀ j < t, bd j ≤ feb j
  le_end : ∀ j < t, feb j ≤ bd (j + 1)
  feb_dvd : ∀ j < t, B ∣ feb j

/-- A position is in a full block of a stripe. -/
def Full (t : ℕ) (bd feb : ℕ → ℕ) (x : ℕ) : Prop := ∃ j, j < t ∧ bd j ≤ x ∧ x < feb j

instance {t : ℕ} {bd feb : ℕ → ℕ} : DecidablePred (Full t bd feb) := fun x =>
  inferInstanceAs (Decidable (∃ j, j < t ∧ bd j ≤ x ∧ x < feb j))

section
variable {B n t i j x y : ℕ} {bd feb : ℕ → ℕ}

theorem Striped.mono (h : Striped B n t bd feb) (hij : i ≤ j) (hj : j ≤ t) : bd i ≤ bd j := by
  induction j, hij using Nat.le_induction with
  | base => exact le_rfl
  | succ j hij ih => exact (ih (by omega)).trans (h.lt j hj).le

theorem Striped.le_n (h : Striped B n t bd feb) (hj : j ≤ t) : bd j ≤ n := h.last ▸ h.mono hj le_rfl

/-- A position lies in one stripe. -/
theorem Striped.exists_stripe (h : Striped B n t bd feb) (hx : x < n) :
    ∃ j < t, bd j ≤ x ∧ x < bd (j + 1) :=
  exists_step (by rw [h.zero]; exact Nat.zero_le x) (by rwa [h.last])

theorem Striped.eq_of_mem (h : Striped B n t bd feb) (hi : i < t) (hj : j < t) (hi₁ : bd i ≤ x)
    (hi₂ : x < bd (i + 1)) (hj₁ : bd j ≤ x) (hj₂ : x < bd (j + 1)) : i = j := by
  rcases Nat.lt_trichotomy i j with hlt | heq | hgt
  · have := h.mono (show i + 1 ≤ j from hlt) hj.le
    omega
  · exact heq
  · have := h.mono (show j + 1 ≤ i from hgt) hi.le
    omega

theorem Striped.full_lt (h : Striped B n t bd feb) (hx : Full t bd feb x) : x < n := by
  obtain ⟨j, hj, -, hlt⟩ := hx
  exact hlt.trans_le ((h.le_end j hj).trans (h.le_n hj))

theorem Striped.full_iff (h : Striped B n t bd feb) (hj : j < t) (h₁ : bd j ≤ x)
    (h₂ : x < bd (j + 1)) : Full t bd feb x ↔ x < feb j := by
  refine ⟨fun ⟨i, hi, hi₁, hi₂⟩ => ?_, fun hlt => ⟨j, hj, h₁, hlt⟩⟩
  rwa [h.eq_of_mem hj hi h₁ h₂ hi₁ (hi₂.trans_le (h.le_end i hi))]

/-- **The elements of full blocks before a position of a stripe**, or behind the last one. -/
theorem Striped.taking_eq (h : Striped B n t bd feb) (hj : j < t) (h₁ : bd j ≤ x)
    (h₂ : x ≤ bd (j + 1) ∨ j + 1 = t) :
    taking (Full t bd feb) x = taking (Full t bd feb) (bd j) + (min x (feb j) - bd j) := by
  have hle := h.begin_le j hj
  have hall : ∀ y, bd j ≤ y → y ≤ feb j →
      taking (Full t bd feb) y = taking (Full t bd feb) (bd j) + (y - bd j) := fun y hy₁ hy₂ =>
    taking_of_all hy₁ fun z hz₁ hz₂ => ⟨j, hj, hz₁, hz₂.trans_le hy₂⟩
  rcases Nat.le_total x (feb j) with hx | hx
  · rw [min_eq_left hx]
    exact hall x h₁ hx
  · rw [min_eq_right hx, ← hall _ hle le_rfl]
    refine taking_of_none hx fun z hz₁ hz₂ hfull => ?_
    rcases h₂ with h₂ | rfl
    · have := (h.full_iff hj (hle.trans hz₁) (hz₂.trans_le h₂)).mp hfull
      omega
    · have := (h.full_iff hj (hle.trans hz₁) (by rw [h.last]; exact h.full_lt hfull)).mp hfull
      omega

/-- So counted are multiples of the block size. -/
theorem Striped.dvd_taking (h : Striped B n t bd feb) (ht : 1 ≤ t) (hx : B ∣ x) :
    B ∣ taking (Full t bd feb) x := by
  have hbd : ∀ j < t, B ∣ taking (Full t bd feb) (bd j) := by
    intro j
    induction j with
    | zero =>
      intro _
      rw [h.zero, taking, Nat.count_zero]
      exact Nat.dvd_zero B
    | succ j ih =>
      intro hj
      rw [h.taking_eq (show j < t by omega) (h.lt j (by omega)).le (.inl le_rfl),
        min_eq_right (h.le_end j (by omega))]
      exact Nat.dvd_add (ih (by omega)) (Nat.dvd_sub (h.feb_dvd j (by omega)) (h.dvd j (by omega)))
  have hstripe : ∃ j < t, bd j ≤ x ∧ (x ≤ bd (j + 1) ∨ j + 1 = t) := by
    rcases Nat.lt_or_ge x n with hlt | hge
    · obtain ⟨j, hj, h₁, h₂⟩ := h.exists_stripe hlt
      exact ⟨j, hj, h₁, .inl h₂.le⟩
    · exact ⟨t - 1, by omega, (h.le_n (by omega)).trans hge, .inr (by omega)⟩
  obtain ⟨j, hj, h₁, h₂⟩ := hstripe
  rw [h.taking_eq hj h₁ h₂]
  refine Nat.dvd_add (hbd j hj) (Nat.dvd_sub ?_ (h.dvd j hj))
  rcases Nat.le_total x (feb j) with hle | hle
  · rwa [min_eq_left hle]
  · rw [min_eq_right hle]
    exact h.feb_dvd j hj

/-- The front of a part of a stripe, or of what is behind the last one. -/
theorem Striped.front_eq (h : Striped B n t bd feb) (hj : j < t) (h₁ : bd j ≤ x) (hxy : x ≤ y)
    (h₂ : y ≤ bd (j + 1) ∨ j + 1 = t) : front (Full t bd feb) x y = min y (max x (feb j)) := by
  have hx := h.taking_eq hj h₁ (h₂.imp_left hxy.trans)
  have hy := h.taking_eq hj (h₁.trans hxy) h₂
  have := h.begin_le j hj
  unfold front
  omega

end

section
variable {B n t : ℕ} (hB : 1 ≤ B) (ht : 1 ≤ t) (hn : 4 * t * B ≤ n)
include hB ht hn

/-- A stripe is four blocks wide before its ends are rounded up to block boundaries. -/
theorem stripeBegin_step (j : ℕ) : stripeBegin B n t j + 3 * B < stripeBegin B n t (j + 1) := by
  have hsum : (2 * j * n + t) / (2 * t) + 4 * B ≤ (2 * (j + 1) * n + t) / (2 * t) := by
    rw [Nat.le_div_iff_mul_le (by omega), Nat.add_mul]
    have h₁ := Nat.div_mul_le_self (2 * j * n + t) (2 * t)
    have h₂ : 4 * B * (2 * t) = 2 * (4 * t * B) := by ring
    have h₃ : 2 * (j + 1) * n = 2 * j * n + 2 * n := by ring
    omega
  have h₁ := alignToNextBlock_lt hB ((2 * j * n + t) / (2 * t))
  have h₂ := le_alignToNextBlock hB ((2 * (j + 1) * n + t) / (2 * t))
  unfold stripeBegin
  omega

omit hB hn in
theorem stripeBegin_last : stripeBegin B n t t = alignToNextBlock B n := by
  have h₁ : 2 * t * n + t = t + 2 * t * n := Nat.add_comm _ _
  rw [stripeBegin, h₁, Nat.add_mul_div_left _ _ (by omega),
    Nat.div_eq_of_lt (by omega), Nat.zero_add]

omit hn in
theorem stripeBegin_zero : stripeBegin B n t 0 = 0 := by
  rw [stripeBegin, Nat.mul_zero, Nat.zero_mul, Nat.zero_add, Nat.div_eq_of_lt (by omega)]
  exact alignToNextBlock_of_dvd hB (Nat.dvd_zero B)

/-- **All stripes of the parallel classification have elements.** -/
theorem stripeBegin_lt {j : ℕ} (hj : j < t) : stripeBegin B n t j < n := by
  have hlast : stripeBegin B n t t < n + B := by
    rw [stripeBegin_last ht]
    exact alignToNextBlock_lt hB n
  have hle : ∀ k, j + 1 ≤ k → stripeBegin B n t (j + 1) ≤ stripeBegin B n t k := by
    intro k hk
    induction k, hk using Nat.le_induction with
    | base => exact le_rfl
    | succ k _ ih =>
      have := stripeBegin_step hB ht hn k
      omega
  have h₁ := stripeBegin_step hB ht hn j
  have h₂ := hle t hj
  omega

/-- The boundaries of the stripes. -/
theorem striped_of_stripeBegin {feb : ℕ → ℕ}
    (hfeb : ∀ j < t, stripeBegin B n t j ≤ feb j ∧ feb j ≤ stripeEnd B n t j)
    (hdvd : ∀ j < t, B ∣ feb j) : Striped B n t (fun j => min n (stripeBegin B n t j)) feb where
  zero := by
    rw [stripeBegin_zero hB ht]
    exact Nat.min_zero n
  last := by
    rw [stripeBegin_last ht]
    exact min_eq_left (le_alignToNextBlock hB n)
  lt j hj := by
    have h₁ := stripeBegin_step hB ht hn j
    have h₂ := stripeBegin_lt hB ht hn hj
    omega
  dvd j hj := by
    rw [min_eq_right (stripeBegin_lt hB ht hn hj).le]
    exact dvd_alignToNextBlock B _
  begin_le j hj := (min_le_right _ _).trans (hfeb j hj).1
  le_end j hj := (hfeb j hj).2
  feb_dvd := hdvd

end

/-! ### The buckets of a stripe -/

theorem advance_spec (cond : ℕ → Bool) (fuel i : ℕ) :
    i ≤ advance cond fuel i ∧ advance cond fuel i ≤ i + fuel ∧
    (∀ x, i ≤ x → x < advance cond fuel i → cond x = true) ∧
      (advance cond fuel i < i + fuel → cond (advance cond fuel i) = false) := by
  induction fuel generalizing i with
  | zero =>
    exact ⟨le_rfl, le_rfl, fun x h₁ h₂ => absurd h₂ (Nat.not_lt_of_le h₁),
      fun h => absurd h (lt_irrefl _)⟩
  | succ fuel ih =>
    rw [advance]
    by_cases hc : cond i = true
    · obtain ⟨h₁, h₂, h₃, h₄⟩ := ih (i + 1)
      rw [if_pos hc]
      refine ⟨by omega, by omega, fun x hx₁ hx₂ => ?_, fun h => h₄ (by omega)⟩
      rcases Nat.eq_or_lt_of_le hx₁ with rfl | hlt
      · exact hc
      · exact h₃ x hlt hx₂
    · rw [if_neg hc]
      exact ⟨le_rfl, by omega, fun x h₁ h₂ => absurd h₂ (Nat.not_lt_of_le h₁),
        fun _ => by simpa using hc⟩

section
variable {B n nb t : ℕ} {bss bd feb : ℕ → ℕ}

/-- Where the blocks of bucket `b` begin. -/
abbrev startOf (B : ℕ) (bss : ℕ → ℕ) (b : ℕ) : ℕ := alignToNextBlock B (bss b)

/-- The first of the buckets that start at `v` or later. -/
theorem bucketRangeStart_spec {v : ℕ} (h : v ≤ startOf B bss nb) :
    bucketRangeStart B nb bss v ≤ nb ∧ (∀ b < bucketRangeStart B nb bss v, startOf B bss b < v) ∧
      v ≤ startOf B bss (bucketRangeStart B nb bss v) := by
  obtain ⟨-, h₂, h₃, h₄⟩ := advance_spec (fun i => alignToNextBlock B (bss i) < v) nb 0
  rw [bucketRangeStart]
  set r := advance (fun i => alignToNextBlock B (bss i) < v) nb 0
  rw [Nat.zero_add] at h₂ h₄
  refine ⟨h₂, fun b hb => by simpa using h₃ b (Nat.zero_le b) hb, ?_⟩
  rcases Nat.lt_or_ge r nb with hlt | hge
  · simpa using h₄ hlt
  · rwa [Nat.le_antisymm h₂ hge]

/-- It is the only one. -/
theorem bucketRangeStart_eq {v r : ℕ} (h : v ≤ startOf B bss nb) (hr : ∀ b < r, startOf B bss b < v)
    (hr' : v ≤ startOf B bss r) : bucketRangeStart B nb bss v = r := by
  obtain ⟨-, h₂, h₃⟩ := bucketRangeStart_spec h
  rcases Nat.lt_trichotomy (bucketRangeStart B nb bss v) r with hlt | heq | hgt
  · have := hr _ hlt
    omega
  · exact heq
  · have := h₂ r hgt
    omega

/-- The buckets that start in a stripe end where those of the next one begin. -/
theorem bucketRangeEnd_spec {j v v' : ℕ} (h : v' ≤ startOf B bss nb) (hv : v ≤ v') :
    bucketRangeEnd B nb t bss j v' (bucketRangeStart B nb bss v) =
      if j = t - 1 then nb else bucketRangeStart B nb bss v' := by
  rw [bucketRangeEnd]
  split_ifs with hj
  · rfl
  · obtain ⟨h₁, h₂, h₃⟩ := bucketRangeStart_spec (hv.trans h)
    set start := bucketRangeStart B nb bss v
    obtain ⟨h₄, h₅, h₆, h₇⟩ :=
      advance_spec (fun i => i < nb ∧ alignToNextBlock B (bss i) < v') (nb - start) start
    rw [Nat.add_sub_of_le h₁] at h₅ h₇
    refine (bucketRangeStart_eq h (fun b hb => ?_) ?_).symm
    · rcases Nat.lt_or_ge b start with hlt | hge
      · exact (h₂ b hlt).trans_le hv
      · have := h₆ b hge hb
        simp only [decide_eq_true_eq] at this
        exact this.2
    · rcases Nat.eq_or_lt_of_le h₅ with heq | hlt
      · rw [heq]
        exact h
      · have := h₇ hlt
        simp only [decide_eq_false_iff_not, not_and, not_lt] at this
        exact this hlt

end

/-! ### Counting -/

section
variable {B n nb t i j x y s e b r : ℕ} {bss bd feb fb : ℕ → ℕ} (h : Striped B n t bd feb)
  (hfb : ∀ j < t, fb j = bd j)
include h

theorem Striped.taking_le_last (x : ℕ) : taking (Full t bd feb) x ≤ taking (Full t bd feb) n := by
  rcases Nat.le_total x n with hle | hle
  · exact taking_mono _ hle
  · refine (taking_of_none hle fun z hz _ hfull => ?_).le
    have := h.full_lt hfull
    omega

/-- What is left of a bucket behind the beginning of a stripe is in the stripe, or behind it. -/
theorem Striped.taking_down (hr : r < t) :
    taking (Full t bd feb) e - taking (Full t bd feb) (bd r) =
    min (feb r) e - bd r + (taking (Full t bd feb) e - taking (Full t bd feb) (bd (r + 1))) := by
  have hlt := h.lt r hr
  have hle := h.le_end r hr
  have hend := h.taking_eq hr hlt.le (.inl le_rfl)
  have hmono := taking_mono (Full t bd feb) hlt.le
  rcases Nat.le_total e (bd r) with he | he
  · have := taking_mono (Full t bd feb) he
    omega
  · rcases Nat.le_total e (bd (r + 1)) with he' | he'
    · have := h.taking_eq hr he (.inl he')
      have := taking_mono (Full t bd feb) he'
      omega
    · have := taking_mono (Full t bd feb) he'
      omega

include hfb

/-- Counting to the left. -/
theorem flushedBefore_eq (hi : i < t) (hs : s < bd (i + 1)) :
    flushedBefore fb feb s i = taking (Full t bd feb) (bd (i + 1)) - taking (Full t bd feb) s := by
  have hlt := h.lt i hi
  have hle := h.le_end i hi
  have hend := h.taking_eq hi hlt.le (.inl le_rfl)
  have hin : bd i ≤ s → feb i - s = taking (Full t bd feb)
      (bd (i + 1)) - taking (Full t bd feb) s := fun hs' => by
    have := h.taking_eq hi hs' (.inl hs.le)
    have := h.begin_le i hi
    omega
  induction i with
  | zero => exact hin (by rw [h.zero]; exact Nat.zero_le s)
  | succ i ih =>
    rw [flushedBefore, hfb _ hi]
    split_ifs with hbefore
    · rw [ih (by omega) hbefore (h.lt i (by omega)) (h.le_end i (by omega))
        (h.taking_eq (by omega) (h.lt i (by omega)).le (.inl le_rfl)) fun hs' => ?_]
      · have := taking_mono (Full t bd feb) hbefore.le
        omega
      · have := h.taking_eq (show i < t by omega) hs' (.inl hbefore.le)
        have := h.taking_eq (show i < t by omega) (h.lt i (by omega)).le (.inl le_rfl)
        have := h.begin_le i (by omega)
        have := h.le_end i (by omega)
        omega
    · exact hin (Nat.le_of_not_lt hbefore)

/-- Counting to the right. -/
theorem flushedAfter_eq {fuel k : ℕ} (hr : r ≤ t) (hfuel : t ≤ r + fuel) :
    ∃ R, flushedAfter t fb feb e fuel r k =
      (R, k + (taking (Full t bd feb) e - taking (Full t bd feb) (bd r))) ∧
      r ≤ R ∧ R ≤ t ∧ taking (Full t bd feb) e - taking (Full t bd feb) (bd R) = 0 := by
  induction fuel generalizing r k with
  | zero =>
    obtain rfl : r = t := by omega
    have hzero : taking (Full r bd feb) e - taking (Full r bd feb) (bd r) = 0 := by
      rw [h.last]
      exact Nat.sub_eq_zero_of_le (h.taking_le_last e)
    exact ⟨r, by rw [flushedAfter, hzero, Nat.add_zero], le_rfl, le_rfl, hzero⟩
  | succ fuel ih =>
    rw [flushedAfter]
    split_ifs with hc
    · obtain ⟨hrt, hbe⟩ := hc
      obtain ⟨R, heq, h₁, h₂, h₃⟩ := ih (k := k + (min (feb r) e - fb r))
        (show r + 1 ≤ t from hrt) (by omega)
      refine ⟨R, ?_, by omega, h₂, h₃⟩
      rw [heq, h.taking_down hrt, hfb r hrt, Nat.add_assoc]
    · have hzero : taking (Full t bd feb) e - taking (Full t bd feb) (bd r) = 0 := by
        rcases Nat.eq_or_lt_of_le hr with rfl | hlt
        · rw [h.last]
          exact Nat.sub_eq_zero_of_le (h.taking_le_last e)
        · rw [hfb r hlt] at hc
          exact Nat.sub_eq_zero_of_le (taking_mono _ (by omega))
      exact ⟨r, by rw [hzero, Nat.add_zero], le_rfl, hr, hzero⟩

/-- **What a thread counts**: the gaps of the bucket before the stripe, which are for other threads,
and where the front of the bucket ends when all gaps are filled. -/
theorem overlap_eq (hj : j < t) (hs : startOf B bss b ≤ bd (j + 1) ∨ j + 1 = t)
    (he : bd (j + 1) ≤ e) : ∃ R, overlap B t bss fb feb j (bd j) (feb j) b e =
      ⟨startOf B bss b, gaps (Full t bd feb) (startOf B bss b) (bd j), R,
        front (Full t bd feb) (startOf B bss b) e⟩ ∧
      R ≤ t ∧ taking (Full t bd feb) e - taking (Full t bd feb) (bd R) = 0 := by
  set s := startOf B bss b
  have hlt := h.lt j hj
  have hle := h.le_end j hj
  have hle' := h.begin_le j hj
  have hend := h.taking_eq hj hlt.le (.inl le_rfl)
  have hmono := taking_mono (Full t bd feb) he
  have hbefore : s < bd j →
      flushedBefore fb feb s (j - 1) = taking (Full t bd feb) (bd j) - taking (Full t bd feb) s :=
      fun hsj => by
    have hj0 : j ≠ 0 := by
      rintro rfl
      rw [h.zero] at hsj
      omega
    have := flushedBefore_eq h hfb (show j - 1 < t by omega) (s := s)
    rw [Nat.sub_add_cancel (by omega)] at this
    exact this hsj
  -- what has been counted with the stripe of the thread
  have hown : (if s < bd j then (if s < bd j then flushedBefore fb feb s (j - 1)
    else 0) + (feb j - bd j)
      else if s < feb j then (if s < bd j then flushedBefore fb feb s (j - 1) else 0) + (feb j - s)
      else if s < bd j then flushedBefore fb feb s (j - 1) else 0) =
      taking (Full t bd feb) (bd (j + 1)) - taking (Full t bd feb) s := by
    by_cases hsj : s < bd j
    · have := taking_mono (Full t bd feb) hsj.le
      rw [if_pos hsj, if_pos hsj, hbefore hsj]
      omega
    · have := h.taking_eq hj (Nat.le_of_not_lt hsj) hs
      simp only [if_neg hsj, Nat.zero_add]
      split_ifs <;> omega
  have hreserved : (if s < bd j then bd j - s - (if s < bd j then flushedBefore fb feb s (j - 1)
      else 0) else 0) = gaps (Full t bd feb) s (bd j) := by
    unfold gaps
    by_cases hsj : s < bd j
    · rw [if_pos hsj, if_pos hsj, hbefore hsj]
    · rw [if_neg hsj]
      omega
  have hsle : taking (Full t bd feb) s ≤ taking (Full t bd feb) (bd (j + 1)) := by
    rcases hs with hs | rfl
    · exact taking_mono _ hs
    · rw [h.last]
      exact h.taking_le_last s
  obtain ⟨R, heq, h₁, h₂, h₃⟩ :=
    flushedAfter_eq h hfb (e := e) (k := taking (Full t bd feb) (bd (j + 1)) -
    taking (Full t bd feb) s) (show j + 1 ≤ t from hj) (show t ≤ j + 1 + (t - (j + 1)) by omega)
  refine ⟨R, ?_, h₂, h₃⟩
  have hfront : s + (taking (Full t bd feb) (bd (j + 1)) - taking (Full t bd feb) s +
      (taking (Full t bd feb) e - taking (Full t bd feb) (bd (j + 1)))) =
      front (Full t bd feb) s e := by
    unfold front
    omega
  simp only [overlap]
  rw [show alignToNextBlock B (bss b) = s from rfl, hown, heq, hreserved, hfront]

end

/-! ### Pointers -/

/-- Where the full blocks of bucket `b` end when they have been moved to its front. -/
abbrev frontOf (B t : ℕ) (bss bd feb : ℕ → ℕ) (b : ℕ) : ℕ :=
  front (Full t bd feb) (startOf B bss b) (startOf B bss (b + 1))

/-- The pointers of bucket `b`: its start, and its last full block. -/
def pointersOf (B t : ℕ) (bss bd feb : ℕ → ℕ) (b : ℕ) : ℕ × BucketPointers :=
  (b, .set (startOf B bss b) (frontOf B t bss bd feb b - B))

section
variable {B n nb t j b : ℕ} {bss bd feb : ℕ → ℕ}

theorem startOf_mono (hB : 1 ≤ B) (hbound : Boundaries false nb n bss) {b c : ℕ} (hbc : b ≤ c)
    (hc : c ≤ nb) : startOf B bss b ≤ startOf B bss c :=
  alignToNextBlock_mono hB (hbound.mono hbc hc)

theorem le_startOf_last (hB : 1 ≤ B) (hbound : Boundaries false nb n bss) :
    n ≤ startOf B bss nb := by
  rw [startOf, hbound.last]
  exact le_alignToNextBlock hB n

theorem startOf_zero (hB : 1 ≤ B) (hbound : Boundaries false nb n bss) : startOf B bss 0 = 0 := by
  rw [startOf, hbound.zero]
  exact alignToNextBlock_of_dvd hB (Nat.dvd_zero B)

/-- **The buckets that start in a stripe**, and the stripe's ends. -/
theorem bucketRange_spec (h : Striped B n t bd feb) (hB : 1 ≤ B)
    (hbound : Boundaries false nb n bss) (hj : j < t) {start stop : ℕ}
    (hstart : start = bucketRangeStart B nb bss (bd j))
    (hstop : stop = bucketRangeEnd B nb t bss j (bd (j + 1)) start) :
    start ≤ stop ∧ 1 ≤ stop ∧ stop ≤ nb ∧ bd j ≤ startOf B bss start ∧
    bd (j + 1) ≤ startOf B bss stop ∧
      (∀ b < start, startOf B bss b < bd j) ∧ ∀ b < stop, startOf B bss b <
        bd (j + 1) ∨ j + 1 = t := by
  have hlt := h.lt j hj
  have hlast : bd (j + 1) ≤ startOf B bss nb := (h.le_n hj).trans (le_startOf_last hB hbound)
  obtain ⟨h₁, h₂, h₃⟩ := bucketRangeStart_spec (hlt.le.trans hlast)
  obtain ⟨h₄, h₅, h₆⟩ := bucketRangeStart_spec hlast
  rw [← hstart] at h₁ h₂ h₃
  rw [hstart, bucketRangeEnd_spec hlast hlt.le] at hstop
  have hend : stop ≤ nb ∧ bd (j + 1) ≤ startOf B bss stop ∧ ∀ b < stop, startOf B bss b <
      bd (j + 1) ∨ j + 1 = t := by
    split_ifs at hstop with hjt
    · rw [hstop]
      exact ⟨le_rfl, hlast, fun _ _ => .inr (by omega)⟩
    · rw [hstop]
      exact ⟨h₄, h₆, fun b hb => .inl (h₅ b hb)⟩
  obtain ⟨h₇, h₈, h₉⟩ := hend
  refine ⟨?_, ?_, h₇, h₃, h₈, h₂, h₉⟩
  · by_contra hno
    have := h₂ stop (Nat.lt_of_not_le hno)
    omega
  · refine Nat.one_le_iff_ne_zero.mpr fun h0 => ?_
    rw [h0, startOf_zero hB hbound] at h₈
    omega

/-- **The pointers of a bucket** that ends in the stripe it starts in. -/
theorem pointersWithin_eq (h : Striped B n t bd feb) (hj : j < t) (h₁ : bd j ≤ startOf B bss b)
    (h₂ : startOf B bss b ≤ startOf B bss (b + 1))
    (h₃ : startOf B bss (b + 1) ≤ bd (j + 1) ∨ j + 1 = t) :
    (b, pointersWithin B bss (feb j) b) = pointersOf B t bss bd feb b := by
  have hfront := h.front_eq hj h₁ h₂ h₃
  have hread : (if feb j ≤ startOf B bss b then startOf B bss b
      else if feb j < startOf B bss (b + 1) then feb j else startOf B bss (b + 1)) =
          frontOf B t bss bd feb b := by
    rw [frontOf, hfront]
    split_ifs <;> omega
  rw [pointersOf, ← hread]
  rfl

end

end Ps4o.InPlace
