import Mathlib.Tactic.Linarith
import Mathlib.Tactic.Positivity
import Mathlib.Tactic.Ring
import Ps4o.InPlace.BlockPermutation

/-!
# Packed pointers of a bucket

When several threads permute the blocks, the two pointers of a bucket are the halves of one word,
which a thread changes in one atomic operation (`BucketPointers` in `bucket_pointers.hpp`, where
`kAtomic` is set): the write pointer is in the lower half, the read pointer, which can become
negative, in the upper half.

## The model

The word is a bit vector of twice `W` bits, where `W` is the width of `diff_t`. The operations on it
are the code's; without `kAtomic` they are the ones of `BucketPointers` on two numbers. Atomic
operations come one after the other, whichever threads they are of, so a run is a sequence of them.

## What is proved

* `PackedPointers.incWrite_pack`, `PackedPointers.decRead_pack` — an operation on the word does what
  it does on the two numbers, as long as both have room in their halves.
* `PackedPointers.run_packed` — **any sequence of operations returns the same pointers with and
  without `kAtomic`**, and leaves the same write pointer.
-/

namespace Ps4o.InPlace

/-! ### Words of two halves -/

/-- A number that `diff_t` can be. -/
def FitsHalf (W : ℕ) (x : ℤ) : Prop := -2 ^ (W - 1) ≤ x ∧ x < 2 ^ (W - 1)

section
variable {W k : ℕ} {w r : ℤ}

/-- Two numbers in the halves of a word are one number in the word. -/
theorem append_ofInt (hW : 1 ≤ W) (hw : 0 ≤ w) (hmax : w < 2 ^ W) (hr : FitsHalf W r) :
    BitVec.ofInt W r ++ BitVec.ofInt W w = BitVec.ofInt (W + W) (2 ^ W * r + w) := by
  rw [← BitVec.ofInt_toInt (x := BitVec.ofInt W r ++ BitVec.ofInt W w), BitVec.toInt_append,
    BitVec.toInt_ofInt_eq_self hW hr.1 hr.2, if_neg (by simp; omega), BitVec.toNat_ofInt,
    Int.emod_eq_of_lt hw (by simpa using hmax), Int.toNat_of_nonneg hw]

/-- The upper half of a word. -/
theorem setWidth_ushiftRight_append (hi lo : BitVec W) : ((hi ++ lo) >>> W).setWidth W = hi := by
  ext i hlt
  simp [BitVec.getElem_append, hlt]

theorem setWidth_signExtend (x : BitVec W) : (x.signExtend (W + W)).setWidth W = x := by
  ext i hlt
  rw [BitVec.getElem_setWidth, BitVec.getLsbD_signExtend, if_pos hlt, BitVec.getLsbD_eq_getElem hlt,
    decide_eq_true (by omega), Bool.true_and]

theorem ofNat_two_pow (W k : ℕ) : BitVec.ofNat W (2 ^ k) = BitVec.twoPow W k := by
  apply BitVec.eq_of_toNat_eq
  rw [BitVec.toNat_ofNat, BitVec.toNat_twoPow]

theorem ofInt_two_pow (W k : ℕ) : BitVec.ofInt W (2 ^ k) = BitVec.twoPow W k := by
  rw [← ofNat_two_pow, ← BitVec.ofInt_natCast, Int.natCast_pow, Nat.cast_ofNat]

/-- The mask of the lower bits. -/
theorem getLsbD_two_pow_sub_one {i : ℕ} (hi : i < W) :
    (BitVec.ofNat W (2 ^ k) - 1).getLsbD i = decide (i < k) := by
  have hones : BitVec.ofNat W (2 ^ k) - 1 = BitVec.ofNat W (2 ^ k - 1) :=
    BitVec.ofNat_sub_ofNat_of_le (2 ^ k) 1 (Nat.one_lt_two_pow (by omega)) Nat.one_le_two_pow
  rw [hones, BitVec.getLsbD_ofNat, Nat.testBit_two_pow_sub_one, decide_eq_true hi, Bool.true_and]

/-- Clearing the lower bits is shifting them out. -/
theorem and_not_two_pow_sub_one (k : ℕ) (x : BitVec W) :
    x &&& ~~~(BitVec.ofNat W (2 ^ k) - 1) = (x.sshiftRight k) <<< k := by
  apply BitVec.eq_of_getLsbD_eq
  intro i hi
  rw [BitVec.getLsbD_and, BitVec.getLsbD_not, getLsbD_two_pow_sub_one hi, BitVec.getLsbD_shiftLeft,
    BitVec.getLsbD_sshiftRight]
  by_cases hlow : i < k
  · simp [hlow]
  · have hadd : k + (i - k) = i := by omega
    have hsub : i - k < W := by omega
    simp [hlow, hi, hadd, hsub]

/-- Clearing the lower bits of a number rounds it down, also when it is negative. -/
theorem ofInt_and_not (hk : k < W) (hr : FitsHalf W r) :
    BitVec.ofInt W r &&& ~~~(BitVec.ofNat W (2 ^ k) - 1) = BitVec.ofInt W (r / 2 ^ k * 2 ^ k) := by
  have hshift : (BitVec.ofInt W r).sshiftRight k = BitVec.ofInt W (r / 2 ^ k) := by
    rw [← BitVec.ofInt_toInt (x := (BitVec.ofInt W r).sshiftRight k), BitVec.toInt_sshiftRight,
      BitVec.toInt_ofInt_eq_self (by omega) hr.1 hr.2, Int.shiftRight_eq_div_pow,
      Int.natCast_pow, Nat.cast_ofNat]
  rw [and_not_two_pow_sub_one, hshift, BitVec.shiftLeft_eq_mul_twoPow,
    BitVec.ofInt_mul, ofInt_two_pow]

end

/-! ### The code -/

/-- `BucketPointers`, with the word that holds the two pointers. -/
structure PackedPointers (W : ℕ) where
  /-- `all_`. -/
  all : BitVec (W + W)
  /-- `num_reading_`. -/
  numReading : ℤ

namespace PackedPointers

variable {W : ℕ}

/-- `set`: the two fields of the union. -/
def set (w r : ℤ) : PackedPointers W := ⟨BitVec.ofInt W r ++ BitVec.ofInt W w, 0⟩

/-- What a word is as a `diff_t`. -/
def toDiff (p : BitVec (W + W)) : ℤ := (p.setWidth W).toInt

/-- `getWrite`. -/
def getWrite (bp : PackedPointers W) : ℤ := (bp.all.setWidth W).toInt

/-- `kMask`. -/
def kMask (W : ℕ) : BitVec (W + W) := 1#(W + W) <<< W - 1

/-- `incWrite`, with `kAtomic`. -/
def incWrite (kBlockSize : ℕ) (bp : PackedPointers W) : (ℤ × ℤ) × PackedPointers W :=
  ((toDiff (bp.all &&& kMask W), toDiff (bp.all >>> W)),
    { bp with all := bp.all + BitVec.ofNat (W + W) kBlockSize })

/-- `decRead`, with `kAtomic`. -/
def decRead (kBlockSize : ℕ) (bp : PackedPointers W) : (ℤ × ℤ) × PackedPointers W :=
  ((toDiff (bp.all &&& kMask W),
      toDiff (bp.all >>> W &&& (~~~(BitVec.ofNat W kBlockSize - 1)).signExtend (W + W))),
    ⟨bp.all - BitVec.ofNat (W + W) kBlockSize <<< W, bp.numReading + 1⟩)

end PackedPointers

/-- The operations that move a pointer. -/
inductive PointerOp where
  | incWrite
  | decRead
  deriving DecidableEq

namespace PointerOp

/-- The operation with `kAtomic`. -/
def packed {W : ℕ} (kBlockSize : ℕ) : PointerOp → PackedPointers W → (ℤ × ℤ) × PackedPointers W
  | incWrite => PackedPointers.incWrite kBlockSize
  | decRead => PackedPointers.decRead kBlockSize

/-- The operation without. -/
def plain (kBlockSize : ℕ) : PointerOp → BucketPointers → (ℤ × ℤ) × BucketPointers
  | incWrite, bp => ((bp.w, bp.r), bp.incWrite kBlockSize)
  | decRead, bp => ((bp.w, bp.r), bp.decRead kBlockSize)

/-- What a sequence of operations returns, and what it leaves behind. -/
def run {σ : Type} (f : PointerOp → σ → (ℤ × ℤ) × σ) : List PointerOp → σ → List (ℤ × ℤ) × σ
  | [], bp => ([], bp)
  | op :: ops, bp => ((f op bp).1 :: (run f ops (f op bp).2).1, (run f ops (f op bp).2).2)

end PointerOp

/-! ### One operation -/

namespace PackedPointers

variable {W k : ℕ} {w r : ℤ}

/-- The two pointers in a word. -/
def pack (W : ℕ) (w r : ℤ) : BitVec (W + W) := BitVec.ofInt W r ++ BitVec.ofInt W w

/-- There is room for both pointers; the write pointer is not negative. -/
structure HasRoom (W : ℕ) (w r : ℤ) : Prop where
  width : 1 ≤ W
  nonneg : 0 ≤ w
  write : w < 2 ^ (W - 1)
  read : FitsHalf W r

theorem HasRoom.fits (h : HasRoom W w r) : FitsHalf W w :=
  ⟨(neg_nonpos.mpr (by positivity)).trans h.nonneg, h.write⟩

theorem HasRoom.write_lt (h : HasRoom W w r) : w < 2 ^ W :=
  h.write.trans_le (pow_le_pow_right₀ (by norm_num) (by omega))

theorem HasRoom.pack_eq (h : HasRoom W w r) : pack W w r = BitVec.ofInt (W + W) (2 ^ W * r + w) :=
  append_ofInt h.width h.nonneg h.write_lt h.read

theorem setWidth_kMask (W : ℕ) : (kMask W).setWidth W = BitVec.allOnes W := by
  have hmask : kMask W = BitVec.ofNat (W + W) (2 ^ W) - 1 := by
    rw [kMask, ofNat_two_pow, BitVec.twoPow_eq]
  apply BitVec.eq_of_getLsbD_eq
  intro i hi
  have hi2 : i < W + W := by omega
  rw [BitVec.getLsbD_setWidth, hmask, getLsbD_two_pow_sub_one hi2, BitVec.getLsbD_allOnes,
    decide_eq_true hi, Bool.and_true]

/-- The lower half is the write pointer. -/
theorem toDiff_write (h : HasRoom W w r) : toDiff (pack W w r) = w := by
  rw [toDiff, pack, BitVec.setWidth_append_eq_right,
    BitVec.toInt_ofInt_eq_self h.width h.fits.1 h.fits.2]

theorem toDiff_and_kMask (h : HasRoom W w r) : toDiff (pack W w r &&& kMask W) = w := by
  rw [toDiff, BitVec.setWidth_and, setWidth_kMask, BitVec.and_allOnes]
  exact toDiff_write h

/-- The upper half is the read pointer. -/
theorem toDiff_ushiftRight (h : HasRoom W w r) : toDiff (pack W w r >>> W) = r := by
  rw [toDiff, pack, setWidth_ushiftRight_append,
    BitVec.toInt_ofInt_eq_self h.width h.read.1 h.read.2]

/-- **`incWrite` on the word is `incWrite` on the pointers**: no carry reaches the read pointer. -/
theorem incWrite_pack (h : HasRoom W w r) (hnext : w + 2 ^ k < 2 ^ (W - 1)) (c : ℤ) :
    incWrite (2 ^ k) ⟨pack W w r, c⟩ = ((w, r), ⟨pack W (w + 2 ^ k) r, c⟩) := by
  have hroom : HasRoom W (w + 2 ^ k) r :=
    { h with nonneg := add_nonneg h.nonneg (by positivity), write := hnext }
  have hadd : pack W w r + BitVec.ofNat (W + W) (2 ^ k) = pack W (w + 2 ^ k) r := by
    rw [h.pack_eq, hroom.pack_eq, ← BitVec.ofInt_natCast, ← BitVec.ofInt_add, Int.natCast_pow,
      Nat.cast_ofNat, add_assoc]
  rw [incWrite, toDiff_and_kMask h, toDiff_ushiftRight h, hadd]

/-- What `decRead` returns as the read pointer has its lower bits cleared. -/
theorem toDiff_masked (h : HasRoom W w r) (hk : k < W) :
    toDiff (pack W w r >>> W &&& (~~~(BitVec.ofNat W (2 ^ k) - 1)).signExtend (W + W)) =
      r / 2 ^ k * 2 ^ k := by
  have hfits : FitsHalf W (r / 2 ^ k * 2 ^ k) := by
    have hpos : (0 : ℤ) < 2 ^ k := by positivity
    have hdvd : (2 : ℤ) ^ k ∣ -2 ^ (W - 1) := (pow_dvd_pow 2 (by omega)).neg_right
    constructor
    · calc -2 ^ (W - 1) = -2 ^ (W - 1) / 2 ^ k * 2 ^ k := (Int.ediv_mul_cancel hdvd).symm
        _ ≤ r / 2 ^ k * 2 ^ k := mul_le_mul_of_nonneg_right (Int.ediv_le_ediv hpos h.read.1) hpos.le
    · exact (Int.ediv_mul_le r hpos.ne').trans_lt h.read.2
  rw [toDiff, BitVec.setWidth_and, setWidth_signExtend, pack, setWidth_ushiftRight_append,
    ofInt_and_not hk h.read, BitVec.toInt_ofInt_eq_self h.width hfits.1 hfits.2]

/-- **`decRead` on the word is `decRead` on the pointers**: no borrow comes from the write
pointer. -/
theorem decRead_pack (h : HasRoom W w r) (hnext : -2 ^ (W - 1) ≤ r - 2 ^ k) (c : ℤ) :
    decRead (2 ^ k) ⟨pack W w r, c⟩ =
      ((w, BucketPointers.read (2 ^ k) ⟨w, r, c⟩), ⟨pack W w (r - 2 ^ k), c + 1⟩) := by
  have hroom : HasRoom W w (r - 2 ^ k) :=
    { h with read := ⟨hnext, (sub_lt_self r (by positivity)).trans h.read.2⟩ }
  have hk : k < W := by
    have hdouble : (2 : ℤ) ^ (W - 1) + 2 ^ (W - 1) = 2 ^ W := by
      rw [← two_mul, ← pow_succ', Nat.sub_add_cancel h.width]
    have hlt : (2 : ℤ) ^ k < 2 ^ W := by linarith [h.read.2]
    exact (pow_lt_pow_iff_right₀ one_lt_two).mp hlt
  have hsub : pack W w r - BitVec.ofNat (W + W) (2 ^ k) <<< W = pack W w (r - 2 ^ k) := by
    have hshift : BitVec.ofNat (W + W) (2 ^ k) <<< W = BitVec.ofInt (W + W) (2 ^ W * 2 ^ k) := by
      rw [BitVec.shiftLeft_eq_mul_twoPow, ← ofInt_two_pow, ← BitVec.ofInt_natCast,
        ← BitVec.ofInt_mul, Int.natCast_pow, Nat.cast_ofNat, mul_comm]
    rw [h.pack_eq, hroom.pack_eq, hshift, BitVec.sub_eq_iff_eq_add, ← BitVec.ofInt_add]
    congr 1
    ring
  rw [decRead, toDiff_and_kMask h, toDiff_masked h hk, hsub, BucketPointers.read,
    Nat.cast_pow, Nat.cast_ofNat]

/-! ### A sequence of operations -/

/-- The write pointer goes up with each `incWrite`, the read pointer down with each `decRead`. -/
structure StaysInRange (W k : ℕ) (w r : ℤ) (ops : List PointerOp) : Prop extends HasRoom W w r where
  blocks : 2 ^ k ∣ r
  last_write : w + 2 ^ k * ops.count .incWrite < 2 ^ (W - 1)
  last_read : -2 ^ (W - 1) ≤ r - 2 ^ k * ops.count .decRead

theorem StaysInRange.incWrite {ops : List PointerOp} (h : StaysInRange W k w r (.incWrite :: ops)) :
    StaysInRange W k (w + 2 ^ k) r ops := by
  have hpos : (0 : ℤ) < 2 ^ k := by positivity
  have hcount : (0 : ℤ) ≤ 2 ^ k * ops.count .incWrite := by positivity
  have hw := h.last_write
  have hr := h.last_read
  rw [List.count_cons_self, Nat.cast_succ, mul_add, mul_one] at hw
  rw [List.count_cons_of_ne (by decide)] at hr
  exact { h with
    nonneg := by linarith [h.nonneg]
    write := by linarith
    last_write := by linarith
    last_read := hr }

theorem StaysInRange.decRead {ops : List PointerOp} (h : StaysInRange W k w r (.decRead :: ops)) :
    StaysInRange W k w (r - 2 ^ k) ops := by
  have hpos : (0 : ℤ) < 2 ^ k := by positivity
  have hcount : (0 : ℤ) ≤ 2 ^ k * ops.count .decRead := by positivity
  have hw := h.last_write
  have hr := h.last_read
  rw [List.count_cons_of_ne (by decide)] at hw
  rw [List.count_cons_self, Nat.cast_succ, mul_add, mul_one] at hr
  exact { h with
    read := ⟨by linarith, by linarith [h.read.2]⟩
    blocks := dvd_sub h.blocks dvd_rfl
    last_write := hw
    last_read := by linarith }

/-- **Any sequence of operations returns the same on the word as on the two pointers**, and leaves
the same write pointer. -/
theorem StaysInRange.run {ops : List PointerOp} (h : StaysInRange W k w r ops) (c c' : ℤ) :
    (PointerOp.run (PointerOp.packed (2 ^ k)) ops ⟨pack W w r, c⟩).1 =
    (PointerOp.run (PointerOp.plain (2 ^ k)) ops ⟨w, r, c'⟩).1 ∧
      (PointerOp.run (PointerOp.packed (2 ^ k)) ops ⟨pack W w r, c⟩).2.getWrite =
        (PointerOp.run (PointerOp.plain (2 ^ k)) ops ⟨w, r, c'⟩).2.w := by
  induction ops generalizing w r c with
  | nil => exact ⟨rfl, toDiff_write h.toHasRoom⟩
  | cons op ops ih =>
    cases op with
    | incWrite =>
      have hnext := h.incWrite
      have hstep := incWrite_pack h.toHasRoom hnext.write c
      obtain ⟨hresults, hwrite⟩ := ih hnext c
      simp only [PointerOp.run, PointerOp.packed, PointerOp.plain, hstep, BucketPointers.incWrite,
        Nat.cast_pow, Nat.cast_ofNat]
      exact ⟨by rw [hresults], hwrite⟩
    | decRead =>
      have hnext := h.decRead
      have hstep := decRead_pack h.toHasRoom hnext.read.1 c
      obtain ⟨hresults, hwrite⟩ := ih hnext (c + 1)
      simp only [PointerOp.run, PointerOp.packed, PointerOp.plain, hstep, BucketPointers.read,
        BucketPointers.decRead, Nat.cast_pow, Nat.cast_ofNat, Int.ediv_mul_cancel h.blocks]
      exact ⟨by rw [hresults], hwrite⟩

end PackedPointers

/-- **The packed pointers refine the plain ones**: after `set`, a sequence of operations returns the
same pairs with `kAtomic` as without, and `getWrite` is the same then. -/
theorem PackedPointers.run_packed {W k : ℕ} {w r : ℤ} {ops : List PointerOp} (hW : 1 ≤ W)
    (hw : 0 ≤ w) (hr : r < 2 ^ (W - 1)) (hblocks : 2 ^ k ∣ r)
    (hwrite : w + 2 ^ k * ops.count .incWrite < 2 ^ (W - 1))
    (hread : -2 ^ (W - 1) ≤ r - 2 ^ k * ops.count .decRead) :
    (PointerOp.run (PointerOp.packed (2 ^ k)) ops (PackedPointers.set (W := W) w r)).1 =
        (PointerOp.run (PointerOp.plain (2 ^ k)) ops (BucketPointers.set w r)).1 ∧
      (PointerOp.run (PointerOp.packed (2 ^ k)) ops (PackedPointers.set (W := W) w r)).2.getWrite =
        (PointerOp.run (PointerOp.plain (2 ^ k)) ops (BucketPointers.set w r)).2.w := by
  have hinc : (0 : ℤ) ≤ 2 ^ k * ops.count .incWrite := by positivity
  have hdec : (0 : ℤ) ≤ 2 ^ k * ops.count .decRead := by positivity
  have hstays : StaysInRange W k w r ops :=
    { width := hW
      nonneg := hw
      write := by linarith
      read := ⟨by linarith, hr⟩
      blocks := hblocks
      last_write := hwrite
      last_read := hread }
  exact hstays.run 0 0

/-- Two blocks of four elements are read in vain, and one is written, in a word of 64 bits. -/
theorem PackedPointers.run_packed_small :
    (PointerOp.run (PointerOp.packed (2 ^ 2)) [.decRead, .incWrite, .decRead, .decRead]
        (PackedPointers.set (W := 32) 4 4)).1 = [(4, 4), (4, 0), (8, 0), (8, -4)] := by
  rw [(run_packed (by decide) (by decide) (by decide) (by decide) (by decide) (by decide)).1]
  decide

end Ps4o.InPlace
