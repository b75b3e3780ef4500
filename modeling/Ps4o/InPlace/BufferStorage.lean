import Ps4o.Config
import Mathlib.Tactic.Ring

/-!
# The storage of the buffers

One piece of memory holds the buffers of all threads (`BufferStorage` in `memory.hpp`): each thread
has a part of it, and in its part a buffer of one block for each bucket (`Buffers` in
`buffers.hpp`).

## The model

Addresses are numbers of bytes from the aligned beginning of the storage on. What the layout depends
on besides the configuration of the buckets are the size of an element, `size`, and
`kBlockSizeInBytes`.

## What is proved

* `blockSize_mul_le` — a block takes no more bytes than it is configured to, unless a single element
  does.
* `buffersInside_iff` — **every buffer lies inside the part of its thread just when an element is
  not larger than a block, or than two blocks when equality buckets are allowed**.
-/

namespace Ps4o.InPlace

/-! ### The code -/

/-- `kBlockSize`: the number of elements in one block. -/
def blockSize (kBlockSizeInBytes size : ℕ) : ℕ :=
  2 ^ log2 (if kBlockSizeInBytes < size then 1 else kBlockSizeInBytes / size)

namespace BufferStorage

variable (cfg : Config) (kBlockSizeInBytes size : ℕ)

/-- The number of bytes for each thread. -/
def kPerThread : ℕ := kBlockSizeInBytes * cfg.kMaxBuckets * (1 + cfg.kAllowEqualBuckets.toNat)

/-- How many bytes are allocated for `numThreads` threads. -/
def allocated (numThreads : ℕ) : ℕ := numThreads * kPerThread cfg kBlockSizeInBytes

/-- Where the part of thread `id` begins. -/
def forThread (id : ℕ) : ℕ := id * kPerThread cfg kBlockSizeInBytes

/-- `Buffers::data`: where the buffer of bucket `i` begins, in the part of thread `id`. -/
def data (id i : ℕ) : ℕ :=
  forThread cfg kBlockSizeInBytes id + i * blockSize kBlockSizeInBytes size * size

/-- Where it ends. -/
def dataEnd (id i : ℕ) : ℕ :=
  data cfg kBlockSizeInBytes size id i + blockSize kBlockSizeInBytes size * size

/-- Every buffer lies inside the part of its thread; so buffers of different threads do not overlap,
and none leaves the allocation. -/
structure BuffersInside (numThreads : ℕ) : Prop where
  inside : ∀ id < numThreads, ∀ i < cfg.kMaxBuckets,
    id * kPerThread cfg kBlockSizeInBytes ≤ data cfg kBlockSizeInBytes size id i ∧
      dataEnd cfg kBlockSizeInBytes size id i ≤ (id + 1) * kPerThread cfg kBlockSizeInBytes
  disjoint : ∀ id < numThreads, ∀ id' < numThreads, id < id' →
    ∀ i < cfg.kMaxBuckets, ∀ i' < cfg.kMaxBuckets,
    dataEnd cfg kBlockSizeInBytes size id i ≤ data cfg kBlockSizeInBytes size id' i'
  allocated : ∀ id < numThreads, ∀ i < cfg.kMaxBuckets,
    dataEnd cfg kBlockSizeInBytes size id i ≤ allocated cfg kBlockSizeInBytes numThreads

end BufferStorage

/-! ### The size of a block -/

section
variable {kBlockSizeInBytes size : ℕ}

theorem blockSize_pos : 1 ≤ blockSize kBlockSizeInBytes size := Nat.two_pow_pos _

/-- A block takes as many bytes as it is configured to at most, unless it has one element, which is
larger. -/
theorem blockSize_mul_le (hsize : 1 ≤ size) :
    blockSize kBlockSizeInBytes size * size ≤ max kBlockSizeInBytes size := by
  rw [blockSize]
  split_ifs with hlarge
  · rw [show log2 1 = 0 from rfl, pow_zero, Nat.one_mul]
    exact le_max_right _ _
  · have hpos : 1 ≤ kBlockSizeInBytes / size := (Nat.le_div_iff_mul_le hsize).mpr (by omega)
    calc 2 ^ log2 (kBlockSizeInBytes / size) * size ≤ kBlockSizeInBytes / size * size :=
          Nat.mul_le_mul_right size (two_pow_log2_le (by omega))
      _ ≤ kBlockSizeInBytes := Nat.div_mul_le_self _ _
      _ ≤ max kBlockSizeInBytes size := le_max_left _ _

end

/-! ### The buffers of the threads -/

namespace BufferStorage

variable {cfg : Config} {kBlockSizeInBytes size numThreads : ℕ}

/-- All buffers of a thread fit when each block does. -/
theorem dataEnd_le
    (hfit : blockSize kBlockSizeInBytes size * size ≤ kBlockSizeInBytes *
    (1 + cfg.kAllowEqualBuckets.toNat)) {id i : ℕ} (hi : i < cfg.kMaxBuckets) :
    dataEnd cfg kBlockSizeInBytes size id i ≤ (id + 1) * kPerThread cfg kBlockSizeInBytes := by
  have hblocks : (i + 1) * (blockSize kBlockSizeInBytes size * size) ≤
      kPerThread cfg kBlockSizeInBytes := by
    calc (i + 1) * (blockSize kBlockSizeInBytes size * size)
        ≤ cfg.kMaxBuckets * (kBlockSizeInBytes * (1 + cfg.kAllowEqualBuckets.toNat)) :=
          Nat.mul_le_mul hi hfit
      _ = kPerThread cfg kBlockSizeInBytes := by rw [kPerThread]; ring
  calc dataEnd cfg kBlockSizeInBytes size id i
      = id * kPerThread cfg kBlockSizeInBytes + (i + 1) *
          (blockSize kBlockSizeInBytes size * size) := by
        rw [dataEnd, data, forThread]
        ring
    _ ≤ id * kPerThread cfg kBlockSizeInBytes + kPerThread cfg kBlockSizeInBytes :=
      Nat.add_le_add_left hblocks _
    _ = (id + 1) * kPerThread cfg kBlockSizeInBytes := (Nat.succ_mul _ _).symm

/-- **Every buffer lies inside the part of its thread just when elements are small enough.** -/
theorem buffersInside_iff (hsize : 1 ≤ size) (ht : 1 ≤ numThreads) :
    BuffersInside cfg kBlockSizeInBytes size numThreads ↔
      size ≤ kBlockSizeInBytes * (1 + cfg.kAllowEqualBuckets.toNat) := by
  have hmax : 1 ≤ cfg.kMaxBuckets := Nat.two_pow_pos _
  constructor
  · intro h
    -- the last buffer of the first thread
    have hlast := (h.inside 0 ht (cfg.kMaxBuckets - 1) (by omega)).2
    have hall : dataEnd cfg kBlockSizeInBytes size 0 (cfg.kMaxBuckets - 1) =
        cfg.kMaxBuckets * (blockSize kBlockSizeInBytes size * size) := by
      obtain ⟨k, hk⟩ := Nat.exists_eq_add_of_le' hmax
      rw [dataEnd, data, forThread, hk, Nat.add_sub_cancel]
      ring
    have hper : (0 + 1) * kPerThread cfg kBlockSizeInBytes =
        cfg.kMaxBuckets * (kBlockSizeInBytes * (1 + cfg.kAllowEqualBuckets.toNat)) := by
      rw [kPerThread]
      ring
    rw [hall, hper] at hlast
    exact (Nat.le_mul_of_pos_left size blockSize_pos).trans (Nat.le_of_mul_le_mul_left hlast hmax)
  · intro hle
    have hfit : blockSize kBlockSizeInBytes size * size ≤ kBlockSizeInBytes *
        (1 + cfg.kAllowEqualBuckets.toNat) :=
      (blockSize_mul_le hsize).trans (max_le (Nat.le_mul_of_pos_right _ (by omega)) hle)
    refine ⟨fun id _ i hi => ⟨Nat.le_add_right _ _, dataEnd_le hfit hi⟩,
      fun id _ id' _ hlt i hi i' _ => ?_, fun id hid i hi => ?_⟩
    · calc dataEnd cfg kBlockSizeInBytes size id i ≤ (id + 1) * kPerThread cfg kBlockSizeInBytes :=
        dataEnd_le hfit hi
        _ ≤ id' * kPerThread cfg kBlockSizeInBytes := Nat.mul_le_mul_right _ hlt
        _ ≤ data cfg kBlockSizeInBytes size id' i' := Nat.le_add_right _ _
    · calc dataEnd cfg kBlockSizeInBytes size id i ≤ (id + 1) * kPerThread cfg kBlockSizeInBytes :=
        dataEnd_le hfit hi
        _ ≤ allocated cfg kBlockSizeInBytes numThreads := Nat.mul_le_mul_right _ hid

/-- Elements of 24 bytes, with the default configuration and four threads. -/
theorem buffersInside_small : BuffersInside { kLogBuckets := 8 } 2048 24 4 :=
  (buffersInside_iff (by decide) (by decide)).mpr (by decide)

/-- Elements of 5000 bytes. -/
theorem not_buffersInside_large : ¬ BuffersInside { kLogBuckets := 8 } 2048 5000 1 := by
  intro h
  have hle : 5000 ≤ 2048 * (1 + 1) := (buffersInside_iff (by decide) (by decide)).mp h
  omega

end BufferStorage

end Ps4o.InPlace
