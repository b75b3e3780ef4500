import Mathlib.Algebra.Order.Ring.Nat
import Mathlib.Data.Nat.Log
import Ps4o.Arithmetic.Rounding

/-!
# Configuration

The parameters of the sorter (`config.hpp`): the constants a user may choose, the
thresholds computed from them, and how the number of buckets, the oversampling and the
number of threads depend on the size of the input.

The oversampling factor is a `double` and rounded like one, and the thresholds are
multiplied in 64 bits. Other sizes are natural numbers, as wide as they need to be, and so
are percentages (a negative one acts as 0) and bucket indices: there is no `bucket_type`
here. What is said about all configurations is about those whose `bucket_type` can hold
the number of every bucket, as `std::ptrdiff_t`, the default, can.
-/

namespace Ps4o

open Ps4o.Arithmetic

/-- What a user may choose, with the defaults. -/
structure Config where
  /-- Whether equal buckets can be used. -/
  kAllowEqualBuckets : Bool := true
  /-- Desired base case size. -/
  kBaseCaseSize : ℕ := 16
  /-- Multiplier for base case threshold. -/
  kBaseCaseMultiplier : ℕ := 16
  /-- Number of splitters that must be equal before equality buckets are enabled. -/
  kEqualBucketsThreshold : ℤ := 5
  /-- Logarithm of the maximum number of buckets (excluding equality buckets). -/
  kLogBuckets : ℕ := 7
  /-- The oversampling factor, in percent. -/
  kOversampleFactor : ℕ := 20
  /-- How many times the classification loop is unrolled. -/
  kUnrollClassifier : ℕ := 7
  deriving DecidableEq

/-- The logarithm to base 2, rounded down. -/
def log2 (n : ℕ) : ℕ := Nat.log2 n

theorem le_log2 {n k : ℕ} (h : 2 ^ k ≤ n) : k ≤ log2 n := by
  have := Nat.two_pow_pos k
  exact (Nat.le_log2 (by omega)).mpr h

theorem two_pow_log2_le {n : ℕ} (h : n ≠ 0) : 2 ^ log2 n ≤ n := Nat.log2_self_le h

namespace Config

variable (cfg : Config)

/-- What a `std::ptrdiff_t` makes of a number. -/
def toDiff (x : ℤ) : ℤ := (Int64.ofInt x).toInt

/-- Up to here, one level of buckets leaves only base cases. No size is up to a negative
threshold, nor up to 0. -/
def kSingleLevelThreshold : ℕ := (toDiff (cfg.kBaseCaseSize * 2 ^ cfg.kLogBuckets)).toNat

/-- Up to here, two levels of buckets leave only base cases. -/
def kTwoLevelThreshold : ℕ :=
  (toDiff (toDiff (cfg.kBaseCaseSize * 2 ^ cfg.kLogBuckets) * 2 ^ cfg.kLogBuckets)).toNat

/-- The oversampling factor to be used for input of size `n`. -/
def oversamplingFactor (n : ℕ) : ℚ :=
  let f := toDouble (toDouble (cfg.kOversampleFactor / 100) * log2 n)
  if f < 1 then 1 else f

/-- The logarithm of the number of buckets to use for input of size `n`. -/
def logBuckets (n : ℕ) : ℕ :=
  if n ≤ cfg.kSingleLevelThreshold then
    max 1 (log2 (n / cfg.kBaseCaseSize))
  else if n ≤ cfg.kTwoLevelThreshold then
    max 1 ((log2 (n / cfg.kBaseCaseSize) + 1) / 2)
  else
    cfg.kLogBuckets

/-- The number of threads for `n` elements of `size` bytes; `2 << 10` is `PS4O_BLOCK_SIZE`. -/
def numThreadsFor (n size maxThreads : ℕ) : ℕ :=
  let blocks := n * size / (2 <<< 10)
  if blocks < 4 * maxThreads then 1 else maxThreads

/-- Maximum number of buckets (including equality buckets). -/
def kMaxBuckets : ℕ := 2 ^ (cfg.kLogBuckets + cfg.kAllowEqualBuckets.toNat)

/-- What the `static_assert`s of `ExtendedConfig` admit, among parameters that are
sizes at all. -/
structure Admitted : Prop where
  /-- There are at least two buckets. -/
  log_pos : 1 ≤ cfg.kLogBuckets
  /-- "Max. bucket count must be <= 512." -/
  log_le : cfg.kLogBuckets ≤ 8
  /-- The classification loop does something. -/
  unroll_pos : 1 ≤ cfg.kUnrollClassifier
  /-- "Base case size must be larger than unroll factor." -/
  unroll_le : cfg.kUnrollClassifier ≤ cfg.kBaseCaseSize

theorem log2_div_le {n k d : ℕ} (h : n ≤ d * 2 ^ k) : log2 (n / d) ≤ k := by
  have hle : n / d ≤ 2 ^ k := Nat.div_le_of_le_mul h
  rcases Nat.eq_zero_or_pos (n / d) with h0 | hpos
  · rw [h0]
    exact Nat.zero_le k
  · have hlt : n / d < 2 ^ (k + 1) := by
      rw [pow_succ]
      have := Nat.two_pow_pos k
      omega
    have := (Nat.log2_lt (by omega)).mpr hlt
    exact Nat.lt_succ_iff.mp this

/-! ### The thresholds -/

theorem toDiff_eq_bmod (x : ℤ) : toDiff x = x.bmod (2 ^ 64) := Int64.toInt_ofInt

theorem toDiff_le {x : ℤ} (h : 0 ≤ x) : toDiff x ≤ x := by
  rw [toDiff_eq_bmod, Int.bmod_def]
  split <;> omega

theorem toDiff_eq {x : ℤ} (h : 0 ≤ x) (h' : x < 2 ^ 63) : toDiff x = x := by
  rw [toDiff_eq_bmod]
  exact Int.bmod_eq_of_le (by omega) (by omega)

theorem toDiff_toDiff_mul (x y : ℤ) : toDiff (toDiff x * y) = toDiff (x * y) := by
  simp only [toDiff_eq_bmod, Int.bmod_mul_bmod]

/-- Sizes are compared with the threshold as the source has it. -/
theorem le_kSingleLevelThreshold {n : ℕ} (hn : 0 < n) : n ≤ cfg.kSingleLevelThreshold ↔
    (n : ℤ) ≤ toDiff (cfg.kBaseCaseSize * 2 ^ cfg.kLogBuckets) := by
  rw [kSingleLevelThreshold]
  omega

/-- A product that needs more than 64 bits only lowers the threshold. -/
theorem kSingleLevelThreshold_le :
    cfg.kSingleLevelThreshold ≤ cfg.kBaseCaseSize * 2 ^ cfg.kLogBuckets := by
  have hle := toDiff_le (x := (cfg.kBaseCaseSize * 2 ^ cfg.kLogBuckets : ℕ)) (by positivity)
  push_cast at hle
  rw [kSingleLevelThreshold, Int.toNat_le]
  exact_mod_cast hle

theorem kTwoLevelThreshold_le :
    cfg.kTwoLevelThreshold ≤ cfg.kBaseCaseSize * 2 ^ (2 * cfg.kLogBuckets) := by
  have hle := toDiff_le (x := (cfg.kBaseCaseSize * 2 ^ (2 * cfg.kLogBuckets) : ℕ)) (by positivity)
  rw [kTwoLevelThreshold, Int.toNat_le, toDiff_toDiff_mul, Int.mul_assoc, ← pow_add, ← two_mul]
  exact_mod_cast hle

/-- A product that fits into 63 bits is the threshold. -/
theorem kSingleLevelThreshold_eq (h : cfg.kBaseCaseSize * 2 ^ cfg.kLogBuckets < 2 ^ 63) :
    cfg.kSingleLevelThreshold = cfg.kBaseCaseSize * 2 ^ cfg.kLogBuckets := by
  have heq := toDiff_eq (x := (cfg.kBaseCaseSize * 2 ^ cfg.kLogBuckets : ℕ)) (by positivity)
    (by exact_mod_cast h)
  push_cast at heq
  rw [kSingleLevelThreshold, heq]
  exact Int.toNat_natCast _

theorem kTwoLevelThreshold_eq (h : cfg.kBaseCaseSize * 2 ^ (2 * cfg.kLogBuckets) < 2 ^ 63) :
    cfg.kTwoLevelThreshold = cfg.kBaseCaseSize * 2 ^ (2 * cfg.kLogBuckets) := by
  have heq := toDiff_eq (x := (cfg.kBaseCaseSize * 2 ^ (2 * cfg.kLogBuckets) : ℕ)) (by positivity)
    (by exact_mod_cast h)
  push_cast at heq
  rw [kTwoLevelThreshold, toDiff_toDiff_mul, Int.mul_assoc, ← pow_add, ← two_mul, heq]
  exact_mod_cast Int.toNat_natCast (cfg.kBaseCaseSize * 2 ^ (2 * cfg.kLogBuckets))

/-! ### The number of buckets -/

/-- There are two buckets at least, and at most as many as configured. -/
theorem logBuckets_mem (h : 1 ≤ cfg.kLogBuckets) (n : ℕ) :
    1 ≤ cfg.logBuckets n ∧ cfg.logBuckets n ≤ cfg.kLogBuckets := by
  rw [logBuckets]
  split
  · next hn =>
    have := log2_div_le (hn.trans cfg.kSingleLevelThreshold_le)
    omega
  · split
    · next hn =>
      have := log2_div_le (hn.trans cfg.kTwoLevelThreshold_le)
      omega
    · omega

/-- There are no more buckets than elements. -/
theorem two_pow_logBuckets_le (hlog : cfg.kLogBuckets ≤ 8) (hB : 1 ≤ cfg.kBaseCaseSize) {n : ℕ}
    (hn : 2 * cfg.kBaseCaseSize < n) : 2 ^ cfg.logBuckets n ≤ n := by
  have htwo : 2 ≤ n / cfg.kBaseCaseSize := (Nat.le_div_iff_mul_le hB).mpr hn.le
  have hpow : 2 ^ log2 (n / cfg.kBaseCaseSize) ≤ n :=
    (two_pow_log2_le (by omega)).trans (Nat.div_le_self _ _)
  have hlog' : 1 ≤ log2 (n / cfg.kBaseCaseSize) := le_log2 htwo
  have hless : ∀ k ≤ log2 (n / cfg.kBaseCaseSize), 2 ^ k ≤ n :=
    fun k hk => (Nat.pow_le_pow_right (by omega) hk).trans hpow
  rw [logBuckets]
  split_ifs with h₁ h₂
  · exact hless _ (by omega)
  · exact hless _ (by omega)
  · have height : 2 ^ cfg.kLogBuckets ≤ 2 ^ 8 := Nat.pow_le_pow_right (by omega) hlog
    by_cases hwrap : cfg.kBaseCaseSize * 2 ^ cfg.kLogBuckets < 2 ^ 63
    · have h₃ : 2 ^ cfg.kLogBuckets ≤ cfg.kSingleLevelThreshold :=
        (Nat.le_mul_of_pos_left _ hB).trans_eq (cfg.kSingleLevelThreshold_eq hwrap).symm
      omega
    · -- the base cases alone are larger than that
      have := (Nat.le_of_not_lt hwrap).trans (Nat.mul_le_mul_left _ height)
      omega

/-! ### The oversampling -/

/-- The default oversampling takes a fifth of the logarithm, and what rounding adds. -/
theorem oversamplingFactor_le (hover : cfg.kOversampleFactor = 20) (n : ℕ) :
    cfg.oversamplingFactor n ≤ max 1 (10 / 49 * (log2 n : ℚ)) := by
  have hfifth : toDouble (20 / 100) ≤ 20 / 100 * (1 + 1 / 2 ^ 53) := round_le 53 (by norm_num)
  have hnonneg : 0 ≤ toDouble (20 / 100) := round_nonneg 53 (by norm_num)
  have hround : toDouble (toDouble (20 / 100) * log2 n) ≤
      toDouble (20 / 100) * log2 n * (1 + 1 / 2 ^ 53) := round_le 53 (by positivity)
  have hle : toDouble (20 / 100) * log2 n * (1 + 1 / 2 ^ 53) ≤ 10 / 49 * log2 n := by
    rw [mul_right_comm]
    refine mul_le_mul_of_nonneg_right ?_ (by positivity)
    linarith
  rw [oversamplingFactor, hover]
  split_ifs
  · exact le_max_left _ _
  · exact le_max_of_le_right (hround.trans hle)

end Config

/-- `Config<>`. -/
def defaultConfig : Config := {}

end Ps4o
