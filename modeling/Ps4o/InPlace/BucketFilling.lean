import Ps4o.InPlace.BufferWriting

/-!
# Filling the margins of a thread's buckets

A thread fills the head of a bucket from the overflow block, from the excess behind the bucket's end
or from what it has saved, then from the buffers; and it does so for one bucket after the other.

## What is proved

* `sat_writeHeadOf` — the head of a bucket, in each of the four cases.
* `sat_writeBucketOf` — a bucket holds its elements, sorted when the source sorts it at once.
* `Scattered.sat_writeMarginsOf` — so do all buckets of a thread.
-/

namespace Ps4o.InPlace

open Ps4o.Program Ps4o.Storage Ps4o.Order Ps4o.Order.Stripes

variable {α : Type}

/-! ### The head of a bucket -/

/-- The elements of bucket `i`: `main` in its blocks in the array, `last` in the overflow block, if
it has one there, and `rest` in the buffers. -/
structure Pieces (B n : ℕ) (p : Ptr Area) (s : Margins) (m : Mem Area α) (i blocks : ℕ) (o : Bool)
    (main last rest : List α) : Prop where
  write : s.write i = alignToNextBlock B (s.bucketStart i) + blocks * B
  size : s.bucketStart (i + 1) = s.bucketStart i + blocks * B + rest.length
  le_n : s.bucketStart (i + 1) ≤ n
  lazy : 1 ≤ blocks → rest ≠ []
  hasMain : Has m (p + alignToNextBlock B (s.bucketStart i)) main
  noOverflow : o = false → last = [] ∧ main.length = blocks * B ∧ (1 ≤ blocks → s.write i ≤ n)
  overflow : o = true → last.length = B ∧ main.length + B = blocks * B ∧ n < s.write i ∧
    Has m overflowBlock last

/-- The elements of a bucket that are in its blocks, but behind its end. -/
def excess (B : ℕ) (s : Margins) (i : ℕ) (main : List α) : List α :=
  main.drop (s.bucketStart (i + 1) - alignToNextBlock B (s.bucketStart i))

/-- What a thread whose buckets end at `stop` knows about the excess of bucket `i`: it has been
saved, or it lies in buckets of the thread. -/
structure Kept (B : ℕ) (s : Margins) (m : Mem Area α) (swap : Ptr Area) (saved : Saved) (stop i : ℕ)
    (o : Bool) (main : List α) : Prop where
  inSwap : some i = saved.swapBucket → saved.inSwapBuffer ≠ 0 → o = false ∧ main ≠ [] ∧
    s.bucketStart (i + 1) < s.write i ∧
    saved.inSwapBuffer = s.write i - s.bucketStart (i + 1) ∧ Has m swap (excess B s i main)
  inPart : ¬ (some i = saved.swapBucket ∧ saved.inSwapBuffer ≠ 0) → o = false → main ≠ [] →
    s.bucketStart (i + 1) < s.write i → s.write i ≤ stop

section
variable {init : Bool} {B n i blocks stop : ℕ} {p swap : Ptr Area} {s : Margins} {m m' : Mem Area α}
  {o : Bool} {saved : Saved} {main last rest : List α}

theorem Pieces.extent (h : Pieces B n p s m i blocks o main last rest) :
    Extent B n (s.bucketStart i) (s.bucketStart (i + 1)) (s.write i) blocks o main.length
      rest.length where
  write_eq := h.write
  size := h.size
  le_n := h.le_n
  lazy hblocks := List.length_pos_iff.mpr (h.lazy hblocks)
  noOverflow ho := (h.noOverflow ho).2
  overflow ho := ⟨(h.overflow ho).2.1, (h.overflow ho).2.2.1⟩

variable (hB : 1 ≤ B)
include hB

/-- The excess goes to the head, from where it has been saved or from behind the bucket. -/
theorem Pieces.sat_excess (h : Pieces B n p s m i blocks false main last rest)
    (hlt : s.bucketStart (i + 1) < s.write i) (hblocks : 1 ≤ blocks) {src : Ptr Area}
    (hhas : Has m src (excess B s i main))
    (hne : ∀ j < s.write i - s.bucketStart (i + 1), ∀ j' < s.write i - s.bucketStart (i + 1),
      src + j ≠ p + s.bucketStart i + j') :
    Sat (copies Area α)
      (seg src (s.write i - s.bucketStart (i + 1)) ∪ bucketRange p s.bucketStart i)
      (moveRange src (p + s.bucketStart i) (s.write i - s.bucketStart (i + 1))) m fun _ m' =>
      HeadFilled p (s.bucketStart i) (s.bucketStart (i + 1)) (s.write i) m'
        (p + s.bucketStart i + (s.write i - s.bucketStart (i + 1)),
          some (alignToNextBlock B (s.bucketStart i) - s.bucketStart i -
            (s.write i - s.bucketStart (i + 1)))) (excess B s i main) rest.length
        (main.take (s.bucketStart (i + 1) - alignToNextBlock B (s.bucketStart i))) 0 ∧
      Untouched m m' (bucketRange p s.bucketStart i) := by
  obtain ⟨-, hroom, hle⟩ := h.extent.excess hB hlt hblocks
  have hle' := le_alignToNextBlock hB (s.bucketStart i)
  have hback := (h.extent.has_main hB hlt hblocks h.hasMain).1
  have hexcess := h.extent.length_excess hB hlt hblocks
  have hhead : seg (p + s.bucketStart i) (s.write i - s.bucketStart (i + 1)) ⊆
      bucketRange p s.bucketStart i := seg_mono (by omega)
  refine (sat_moveRange_bits hexcess hhas hne).mono (Set.union_subset_union_right _ hhead) ?_
  rintro _ m' ⟨hfront, hsame⟩
  rw [Ptr.add_assoc]
  refine ⟨h.extent.headFilled_excess hB hlt hblocks hfront (hsame.has hback fun j hj hmem => ?_),
    hsame.mono hhead⟩
  simp only [elem_mem_seg, Ptr.add_off, Ptr.add_arr, true_and] at hmem
  omega

omit hB in
theorem excess_perm :
    (excess B s i main ++ main.take
      (s.bucketStart (i + 1) - alignToNextBlock B (s.bucketStart i))).Perm (main ++ []) := by
  rw [List.append_nil]
  exact perm_excess _

variable (hp : p.arr = .input)
include hp

/-- The overflow block goes to the head, and behind the blocks in the array. -/
theorem Pieces.sat_overflow (h : Pieces B n p s m i blocks true main last rest) :
    Sat (copies Area α) (bucketRange p s.bucketStart i ∪ seg overflowBlock B)
      (do
        moveRange overflowBlock (p + s.bucketStart i)
          (alignToNextBlock B (s.bucketStart i) - s.bucketStart i)
        moveRange (overflowBlock + (alignToNextBlock B (s.bucketStart i) - s.bucketStart i))
          (p + (s.write i - B)) (B - (alignToNextBlock B (s.bucketStart i) - s.bucketStart i))
        Block.reset init overflowBlock B
        pure (p + (s.write i - B) + (B - (alignToNextBlock B (s.bucketStart i) - s.bucketStart i)),
            none)) m fun r m' =>
      HeadFilled p (s.bucketStart i) (s.bucketStart (i + 1)) (s.write i) m' r
          (last.take (alignToNextBlock B (s.bucketStart i) - s.bucketStart i) ++
            (main ++ last.drop (alignToNextBlock B (s.bucketStart i) - s.bucketStart i)))
          rest.length [] 0 ∧
        Untouched m m' (bucketRange p s.bucketStart i) := by
  have hle := le_alignToNextBlock hB (s.bucketStart i)
  have hlt' := alignToNextBlock_lt hB (s.bucketStart i)
  have hsize := h.size
  have hwrite := h.write
  obtain ⟨hlast, hmain, -, hhas⟩ := h.overflow rfl
  have hblocks := h.extent.blocks_of_overflow hB
  have hpos := h.extent.lazy hblocks
  set a := alignToNextBlock B (s.bucketStart i)
  set rem := a - s.bucketStart i with hrem
  have htake : (last.take rem).length = rem := List.length_take_of_le (by omega)
  have hdrop : (last.drop rem).length = B - rem := by rw [List.length_drop, hlast]
  rw [← List.take_append_drop rem last, has_append, htake] at hhas
  have hhead : seg (p + s.bucketStart i) rem ⊆ bucketRange p s.bucketStart i := seg_mono (by omega)
  have htail : seg (p + (s.write i - B)) (B - rem) ⊆ bucketRange p s.bucketStart i :=
    seg_subset_add (by omega) (by omega)
  have hne : ∀ {x y k l : ℕ}, ∀ j < k, ∀ j' < l, overflowBlock + x + j ≠ p + y + j' :=
    fun j _ j' _ => elem_add_ne (by simp [overflowBlock, hp])
  rw [sat_bind]
  refine (sat_moveRange_bits htake hhas.1 (hne (x := 0))).mono
    (Set.union_subset ((seg_mono (by omega)).trans Set.subset_union_right)
      (hhead.trans Set.subset_union_left)) ?_
  rintro _ m₁ ⟨hfront, hsame₁⟩
  have hhas₂ : Has m₁ (overflowBlock + rem) (last.drop rem) :=
    hsame₁.has hhas.2 fun j _ => notMem_seg_of_arr (by simp [overflowBlock, hp])
  rw [sat_bind]
  refine (sat_moveRange_bits hdrop hhas₂ hne).mono
    (Set.union_subset ((seg_subset (n := B) (by omega)).trans Set.subset_union_right)
      (htail.trans Set.subset_union_left)) ?_
  rintro _ m₂ ⟨hend, hsame₂⟩
  have hfront₂ : Has m₂ (p + s.bucketStart i) (last.take rem) := by
    refine hsame₂.has hfront fun x hx hmem => ?_
    simp only [elem_mem_seg, Ptr.add_off, Ptr.add_arr, true_and] at hmem
    omega
  rw [sat_bind]
  refine (sat_destroyRange_bits _ _).mono Set.subset_union_right ?_
  rintro _ _ rfl
  refine ⟨h.extent.headFilled_overflow hB hlast hfront₂
    (hsame₂.has (hsame₁.has h.hasMain fun x hx hmem => ?_) fun x hx hmem => ?_) hend,
    (hsame₁.mono hhead).trans (hsame₂.mono htail)⟩
  all_goals
    simp only [elem_mem_seg, Ptr.add_off, Ptr.add_arr, true_and] at hmem
    omega

/-- **The head of a bucket**, in each of the cases. -/
theorem sat_writeHeadOf (h : Pieces B n p s m i blocks o main last rest)
    (hk : Kept B s m swap saved stop i o main) (hswap : swap.arr ≠ .input)
    (hstop : s.bucketStart (i + 1) ≤ stop) {overflowBucket : Option ℕ}
    (ho : o = true ↔ some i = overflowBucket ∧ s.overflow = true) :
    Sat (copies Area α)
      (seg (p + s.bucketStart i) (stop - s.bucketStart i) ∪ seg swap B ∪ overflowSpace B o)
        (writeHeadOf init B p s overflowBucket swap saved i) m fun r m' => ∃ front l₁ back l₂,
        HeadFilled p (s.bucketStart i) (s.bucketStart (i + 1)) (s.write i) m' r front l₁.length back
            l₂.length ∧ rest = l₁ ++ l₂ ∧ (front ++ back).Perm (main ++ last) ∧
          Untouched m m' (bucketRange p s.bucketStart i) := by
  have hle := le_alignToNextBlock hB (s.bucketStart i)
  have hlt' := alignToNextBlock_lt hB (s.bucketStart i)
  have hsize := h.size
  have hwrite := h.write
  have hrange : bucketRange p s.bucketStart i ⊆ seg (p + s.bucketStart i)
    (stop - s.bucketStart i) := seg_mono (by omega)
  rw [writeHeadOf]
  cases o with
  | true =>
    obtain ⟨-, hover⟩ := h.extent.overflow rfl
    have hblocks := h.extent.blocks_of_overflow hB
    have hpos := h.extent.lazy hblocks
    have halign := h.extent.align hB hblocks (h.le_n.trans hover.le)
    have hone := Nat.mul_le_mul_right B hblocks
    rw [if_pos (ho.mp rfl), if_neg (by omega)]
    refine (h.sat_overflow hB hp).mono (Set.union_subset_union (hrange.trans Set.subset_union_left)
      fun l hl => ⟨rfl, hl⟩) ?_
    rintro r m' ⟨hfilled, hsame⟩
    refine ⟨_, rest, [], [], hfilled, (List.append_nil rest).symm, ?_, hsame⟩
    rw [List.append_nil]
    exact perm_overflow _
  | false =>
    obtain ⟨rfl, hmain, -⟩ := h.noOverflow rfl
    rw [if_neg fun hcond => by simpa using ho.mpr hcond]
    have hpos : main ≠ [] → 1 ≤ blocks := fun hne => Nat.one_le_iff_ne_zero.mpr fun h0 => by
      rw [h0, Nat.zero_mul] at hmain
      exact hne (List.length_eq_zero_iff.mp hmain)
    by_cases hsaved : some i = saved.swapBucket ∧ saved.inSwapBuffer ≠ 0
    · -- the excess comes from the swap block
      obtain ⟨-, hne, hlt, hin, hhas⟩ := hk.inSwap hsaved.1 hsaved.2
      obtain ⟨-, hroom, -⟩ := h.extent.excess hB hlt (hpos hne)
      have hsub : seg swap (s.write i - s.bucketStart (i + 1)) ⊆
          seg (p + s.bucketStart i) (stop - s.bucketStart i) ∪ seg swap B ∪ overflowSpace B false :=
        (seg_mono (by omega)).trans (Set.subset_union_right.trans Set.subset_union_left)
      rw [if_pos hsaved, if_neg (by omega), hin, sat_bind]
      refine (h.sat_excess hB hlt (hpos hne) hhas fun j _ j' _ => elem_add_ne
        (by simpa [hp] using hswap)).mono (Set.union_subset hsub
          (hrange.trans (Set.subset_union_left.trans Set.subset_union_left))) ?_
      rintro _ m' ⟨hfilled, hsame⟩
      rw [sat_bind]
      refine (sat_destroyRange_bits _ _).mono hsub ?_
      rintro _ _ rfl
      exact ⟨_, rest, _, [], hfilled, (List.append_nil rest).symm, excess_perm, hsame⟩
    · rw [if_neg hsaved]
      by_cases hcase : s.bucketStart (i + 1) < s.write i ∧
        B < s.bucketStart (i + 1) - s.bucketStart i
      · -- the excess comes from behind the bucket
        obtain ⟨hlt, hone⟩ := hcase
        have hblocks := h.extent.blocks_of_excess hB hlt hone
        have hmul := Nat.mul_le_mul_right B hblocks
        have hne : main ≠ [] := by
          rintro rfl
          rw [List.length_nil] at hmain
          omega
        obtain ⟨-, hroom, hle'⟩ := h.extent.excess hB hlt hblocks
        have halign := h.extent.align hB hblocks hlt.le
        have hin := hk.inPart hsaved rfl hne hlt
        have hhas := h.extent.has_main hB hlt hblocks h.hasMain
        have hsub : seg (p + s.bucketStart (i + 1)) (s.write i - s.bucketStart (i + 1)) ⊆
            seg (p + s.bucketStart i) (stop - s.bucketStart i) :=
          seg_subset_add (by omega) (by omega)
        rw [if_pos ⟨hlt, hone⟩, if_neg (by omega), sat_bind]
        refine (h.sat_excess hB hlt hblocks hhas.2 fun j hj j' hj' => ?_).mono
          ((Set.union_subset hsub hrange).trans
            (Set.subset_union_left.trans Set.subset_union_left)) ?_
        · rw [Ptr.add_assoc, Ptr.add_assoc, ne_eq, Ptr.add_inj]
          omega
        · rintro _ m' ⟨hfilled, hsame⟩
          exact ⟨_, rest, _, [], hfilled, (List.append_nil rest).symm, excess_perm, hsame⟩
      · rw [if_neg hcase]
        refine ⟨[], _, main, _, ?_, (List.take_append_drop
          (alignToNextBlock B (s.bucketStart i) - s.bucketStart i) rest).symm, ?_, .refl m _⟩
        · rw [List.length_take, List.length_drop]
          exact h.extent.around hB h.hasMain hcase
        · rw [List.append_nil, List.nil_append]

end

/-! ### The buckets of a thread -/

/-- The elements in the buffers of `t` threads from a bucket. -/
abbrev buffered (t : ℕ) (buf : ℕ → List α) : List α := (List.range t).flatMap buf

/-- Bucket `i` holds the elements of `xs`, and they are sorted if there are few of them or no
further level. -/
structure BucketFilled (comp : α → α → Bool) (cfg : Config) (lastLevel : Bool) (p : Ptr Area)
    (s : Margins) (m : Mem Area α) (i : ℕ) (xs zs : List α) : Prop where
  perm : zs.Perm xs
  has : Has m (p + s.bucketStart i) zs
  sorted : StrictWeak comp → lastLevel = true ∨
    s.bucketStart (i + 1) - s.bucketStart i ≤ 2 * cfg.kBaseCaseSize → Sorted comp zs

section
variable {comp : α → α → Bool} {cfg : Config} {lastLevel : Bool}
variable {init : Bool} {B n i t blocks stop : ℕ} {p swap : Ptr Area} {s : Margins}
  {m m' : Mem Area α} {o : Bool} {saved : Saved} {b : Buffers} {main last : List α}
  {buf : ℕ → List α}

/-- A bucket is as long as its pieces together. -/
theorem Pieces.length {rest : List α} (h : Pieces B n p s m i blocks o main last rest) :
    (main ++ last ++ rest).length = s.bucketStart (i + 1) - s.bucketStart i := by
  have hsize := h.size
  rw [List.length_append, List.length_append]
  cases o with
  | true =>
    obtain ⟨h₁, h₂, -⟩ := h.overflow rfl
    omega
  | false =>
    obtain ⟨rfl, h₂, -⟩ := h.noOverflow rfl
    rw [List.length_nil]
    omega

/-- What is in a bucket does not depend on what is elsewhere. -/
theorem Pieces.congr {rest : List α} (h : Pieces B n p s m i blocks o main last rest)
    {R : Set (Loc Area)} (hm : Untouched m m' R)
    (hmain : ∀ x < main.length, .elem (p + (alignToNextBlock B (s.bucketStart i) + x)) ∉ R)
    (hover : ∀ x < B, .elem (overflowBlock + x) ∉ R) :
    Pieces B n p s m' i blocks o main last rest where
  write := h.write
  size := h.size
  le_n := h.le_n
  lazy := h.lazy
  hasMain := hm.has h.hasMain fun x hx => by
    rw [Ptr.add_assoc]
    exact hmain x hx
  noOverflow := h.noOverflow
  overflow ho := by
    obtain ⟨h₁, h₂, h₃, h₄⟩ := h.overflow ho
    exact ⟨h₁, h₂, h₃, hm.has h₄ fun x hx => hover x (h₁ ▸ hx)⟩

/-- Nor on what is before it. -/
theorem Pieces.before {rest : List α} (h : Pieces B n p s m i blocks o main last rest) (hB : 1 ≤ B)
    (hp : p.arr = .input) {lo k : ℕ} (hm : Untouched m m' (seg (p + lo) k))
    (hk : lo + k ≤ s.bucketStart i) : Pieces B n p s m' i blocks o main last rest := by
  refine h.congr hm (fun x _ hmem => ?_) fun x _ => notMem_seg_of_arr (by simp [overflowBlock, hp])
  have hle := le_alignToNextBlock hB (s.bucketStart i)
  simp only [elem_mem_seg, Ptr.add_off, Ptr.add_arr, true_and] at hmem
  omega

/-- The blocks in the array end with it. -/
theorem Pieces.main_lt {rest : List α} (h : Pieces B n p s m i blocks o main last rest) (hB : 1 ≤ B)
    {x : ℕ} (hx : x < main.length) : alignToNextBlock B (s.bucketStart i) + x < n := by
  have hlt := alignToNextBlock_lt hB (s.bucketStart i)
  have hsize := h.size
  have hwrite := h.write
  have hle := h.le_n
  cases o with
  | true =>
    obtain ⟨-, h₂, -⟩ := h.overflow rfl
    omega
  | false =>
    obtain ⟨-, h₂, h₃⟩ := h.noOverflow rfl
    have := h₃ (Nat.one_le_iff_ne_zero.mpr fun h0 => by rw [h0, Nat.zero_mul] at h₂; omega)
    omega

/-- There is less excess than a block. -/
theorem Pieces.excess_le {rest : List α} (h : Pieces B n p s m i blocks o main last rest)
    (hB : 1 ≤ B) : (excess B s i main).length ≤ B := by
  have hlt := alignToNextBlock_lt hB (s.bucketStart i)
  have hsize := h.size
  rw [excess, List.length_drop]
  cases o with
  | true =>
    obtain ⟨-, h₂, -⟩ := h.overflow rfl
    omega
  | false =>
    obtain ⟨-, h₂, -⟩ := h.noOverflow rfl
    omega

theorem Kept.congr (h : Kept B s m swap saved stop i o main) {R : Set (Loc Area)}
    (hm : Untouched m m' R) (hR : ∀ x < (excess B s i main).length, .elem (swap + x) ∉ R) :
    Kept B s m' swap saved stop i o main where
  inSwap h₁ h₂ := by
    obtain ⟨h₃, h₄, h₅, h₆, h₇⟩ := h.inSwap h₁ h₂
    exact ⟨h₃, h₄, h₅, h₆, hm.has h₇ hR⟩
  inPart := h.inPart

/-- **The bucket holds its elements** then, and its buffers are empty. -/
theorem sat_writeBucketOf (hB : 1 ≤ B) (hp : p.arr = .input)
    (h : Pieces B n p s m i blocks o main last (buffered t buf))
    (hk : Kept B s m swap saved stop i o main)
    (hb : ∀ j < t, b.Keeps B m (j * cfg.kMaxBuckets + i) (buf j)) (hi : i < cfg.kMaxBuckets)
    (hswap : swap.arr = .swap false) (hstop : s.bucketStart (i + 1) ≤ stop)
    {overflowBucket : Option ℕ} (ho : o = true ↔ some i = overflowBucket ∧ s.overflow = true) :
    Sat (copies Area α)
      (seg (p + s.bucketStart i) (stop - s.bucketStart i) ∪ seg swap B ∪ overflowSpace B o ∪
        dataOf B (buffersOf cfg.kMaxBuckets i t))
      (writeBucketOf comp cfg init B p s t lastLevel overflowBucket swap saved b i) m fun b' m' =>
      b.Emptied b' B (buffersOf cfg.kMaxBuckets i t) ∧
        (∃ zs, BucketFilled comp cfg lastLevel p s m' i (main ++ last ++ buffered t buf) zs) ∧
        Untouched m m' (bucketRange p s.bucketStart i) := by
  have hsize := h.size
  have hrange : bucketRange p s.bucketStart i ⊆ seg (p + s.bucketStart i)
      (stop - s.bucketStart i) ∪ seg swap B ∪
      overflowSpace B o ∪ dataOf B (buffersOf cfg.kMaxBuckets i t) :=
    (seg_mono (by omega)).trans (Set.subset_union_left.trans
      (Set.subset_union_left.trans Set.subset_union_left))
  rw [writeBucketOf, sat_bind]
  refine (sat_writeHeadOf hB hp h hk (by rw [hswap]; nofun) hstop ho).mono Set.subset_union_left ?_
  rintro r m₁ ⟨front, l₁, back, l₂, hfilled, hrest, hperm, hsame₁⟩
  have hb₁ : ∀ j < t, b.Keeps B m₁ (j * cfg.kMaxBuckets + i) (buf j) := fun j hj =>
    (hb j hj).congr rfl rfl hsame₁ fun x _ => notMem_seg_of_arr (by simp [Buffers.data, hp])
  rw [sat_bind]
  refine (sat_writeBuffers hfilled hp hi hb₁ hrest).mono
    (Set.union_subset hrange Set.subset_union_right) ?_
  rintro r' m₂ ⟨hemp, hhas, hsame₂⟩
  set zs := front ++ (l₁ ++ (back ++ l₂)) with hzs
  have hlen : zs.length = s.bucketStart (i + 1) - s.bucketStart i := by
    have := hfilled.size
    simp only [hzs, List.length_append]
    omega
  have hzperm : zs.Perm (main ++ last ++ buffered t buf) := by
    rw [hrest]
    exact perm_filled hperm l₁ l₂
  have hsame := hsame₁.trans hsame₂
  split
  · rw [sat_bind, ← hlen]
    have hseg : seg (p + s.bucketStart i) zs.length = bucketRange p s.bucketStart i := by
      rw [hlen, bucketRange]
    have hsort := sat_baseCaseSort_bits comp hhas
    rw [hseg] at hsort
    refine hsort.mono hrange ?_
    rintro _ m₃ ⟨hhas₃, hsame₃⟩
    exact ⟨hemp, ⟨_, (insertionSorted_perm comp zs).trans hzperm, hhas₃,
      fun hc _ => insertionSorted_sorted hc zs⟩, hsame.trans hsame₃⟩
  · next hlarge => exact ⟨hemp, ⟨zs, hzperm, hhas, fun _ hsmall => absurd hsmall hlarge⟩, hsame⟩

end

/-- The blocks have been permuted: the elements of bucket `i` are `main i` in its `blocks i` blocks,
perhaps `last i` in the overflow block, and `buf i j` in the buffer of thread `j`. -/
structure Scattered (kMaxBuckets B n t : ℕ) (p : Ptr Area) (s : Margins) (b : Buffers)
    (m : Mem Area α) (blocks : ℕ → ℕ) (o : ℕ → Bool) (main last : ℕ → List α)
    (buf : ℕ → ℕ → List α) : Prop where
  boundaries : Boundaries false s.numBuckets n s.bucketStart
  le_max : s.numBuckets ≤ kMaxBuckets
  pieces : ∀ i < s.numBuckets, Pieces B n p s m i (blocks i) (o i) (main i)
    (last i) (buffered t (buf i))
  buffers : ∀ i < s.numBuckets, ∀ j < t, b.Keeps B m (j * kMaxBuckets + i) (buf i j)
  overflow : ∀ i < s.numBuckets,
    o i = true ↔ some i = computeOverflowBucket B s.bucketStart s.numBuckets ∧ s.overflow = true

/-- The numbers of the buffers of the buckets from `f` to `l`. -/
def buffersIn (kMaxBuckets t f l : ℕ) : Set ℕ :=
  {k | ∃ i, f ≤ i ∧ i < l ∧ k ∈ buffersOf kMaxBuckets i t}

/-- What a thread works on that has the buckets from `f` to `l`. -/
def partSpace (kMaxBuckets B t : ℕ) (p : Ptr Area) (s : Margins) (o : ℕ → Bool) (swap : Ptr Area)
    (f l : ℕ) : Set (Loc Area) :=
  seg (p + s.bucketStart f) (s.bucketStart l - s.bucketStart f) ∪ seg swap B ∪
    {x | ∃ i, f ≤ i ∧ i < l ∧ x ∈ overflowSpace B (o i)} ∪ dataOf B (buffersIn kMaxBuckets t f l)

section
variable {comp : α → α → Bool} {cfg : Config} {lastLevel : Bool}
variable {init : Bool} {B n i t f l : ℕ} {p swap : Ptr Area} {s : Margins} {m m' : Mem Area α}
  {o : ℕ → Bool} {saved : Saved} {b : Buffers} {blocks : ℕ → ℕ} {main last : ℕ → List α}
  {buf : ℕ → ℕ → List α} (hB : 1 ≤ B) (hp : p.arr = .input)

theorem buffersIn_succ {K : ℕ} (hf : f ≤ l) :
    buffersIn K t f (l + 1) = buffersIn K t f l ∪ buffersOf K l t := by
  ext k
  constructor
  · rintro ⟨i, h₁, h₂, h₃⟩
    rcases Nat.lt_succ_iff_lt_or_eq.mp h₂ with hlt | rfl
    · exact .inl ⟨i, h₁, hlt, h₃⟩
    · exact .inr h₃
  · rintro (⟨i, h₁, h₂, h₃⟩ | h₃)
    · exact ⟨i, h₁, h₂.trans (Nat.lt_succ_self l), h₃⟩
    · exact ⟨l, hf, Nat.lt_succ_self l, h₃⟩

/-- The buffers of a bucket are not among those of other buckets. -/
theorem notMem_buffersIn {K j : ℕ} (hl : l ≤ K) (hi : i < K) (h : i < f ∨ l ≤ i) :
    j * K + i ∉ buffersIn K t f l := by
  rintro ⟨c, h₁, h₂, u, -, he⟩
  have := (add_mul_inj hi (h₂.trans_le hl) he).2
  omega

include hB hp

/-- **The buckets of a thread** hold their elements in the end, and their buffers are empty. -/
theorem Scattered.sat_writeMarginsOf
    (h : Scattered cfg.kMaxBuckets B n t p s b m blocks o main last buf) (hf : f ≤ l)
    (hl : l ≤ s.numBuckets) (hswap : swap.arr = .swap false)
    (hk : ∀ i, f ≤ i → i < l → Kept B s m swap saved (s.bucketStart l) i (o i) (main i)) :
    Sat (copies Area α) (partSpace cfg.kMaxBuckets B t p s o swap f l)
      (writeMarginsOf comp cfg init B p s n t f l
        (computeOverflowBucket B s.bucketStart s.numBuckets) swap saved b) m
      fun b' m' => b.Emptied b' B (buffersIn cfg.kMaxBuckets t f l) ∧ ∀ i, f ≤ i → i < l →
        ∃ zs, BucketFilled comp cfg (n ≤ cfg.kSingleLevelThreshold) p s m' i
          (main i ++ last i ++ buffered t (buf i)) zs := by
  have hbound := h.boundaries
  rw [writeMarginsOf]
  refine (sat_loop (fun j b' m' => b.Emptied b' B (buffersIn cfg.kMaxBuckets t f (f + j)) ∧
    (∀ i, f ≤ i → i < f + j → ∃ zs, BucketFilled comp cfg (n ≤ cfg.kSingleLevelThreshold) p s m' i
      (main i ++ last i ++ buffered t (buf i)) zs) ∧
    Untouched m m' (seg (p + s.bucketStart f) (s.bucketStart (f + j) - s.bucketStart f)))
    ⟨?_, fun i h₁ h₂ => absurd h₂ (by omega), .refl m _⟩ ?_).imp ?_
  · exact .refl fun k ⟨i, h₁, h₂, _⟩ => absurd h₂ (by omega)
  · rintro j hj b' m' ⟨hemp, hdone, hsame⟩
    have hin : f + j < s.numBuckets := by omega
    have hmono := hbound.mono (show f ≤ f + j by omega) hin.le
    have hstep := hbound.step _ hin
    have hpieces := h.pieces _ hin
    have hsize := hpieces.size
    have hkeeps : ∀ u < t, b'.Keeps B m' (u * cfg.kMaxBuckets + (f + j)) (buf (f + j) u) :=
        fun u hu =>
      (h.buffers _ hin u hu).congr
        (hemp.other _ (notMem_buffersIn (hin.le.trans h.le_max) (hin.trans_le h.le_max)
          (.inr le_rfl))) hemp.stop hsame
        fun x _ => notMem_seg_of_arr (by simp [Buffers.data, hp])
    have hkept := (hk (f + j) (by omega) (by omega)).congr hsame fun x _ =>
      notMem_seg_of_arr (by simp [hswap, hp])
    refine (sat_writeBucketOf hB hp (hpieces.before hB hp hsame (by omega)) hkept hkeeps
      (hin.trans_le h.le_max) hswap
      (hbound.mono (show f + j + 1 ≤ l by omega) hl) (h.overflow _ hin)).mono ?_ ?_
    · refine Set.union_subset_union (Set.union_subset_union (Set.union_subset_union_left _ ?_)
        fun x hx => ?_) fun x hx => ?_
      · have hle := hbound.mono (show f + j ≤ l by omega) hl
        exact seg_subset_add hmono (by omega)
      · exact ⟨f + j, by omega, by omega, hx⟩
      · obtain ⟨k, hk, hx⟩ := hx
        exact ⟨k, ⟨f + j, by omega, by omega, hk⟩, hx⟩
    · rintro b'' m'' ⟨hemp', hbucket, hsame'⟩
      refine ⟨?_, fun i h₁ h₂ => ?_, (hsame.mono (seg_mono ?_)).trans (hsame'.mono ?_)⟩
      · rw [← Nat.add_assoc, buffersIn_succ (Nat.le_add_right f j)]
        exact hemp.trans hemp'
      · rcases Nat.lt_succ_iff_lt_or_eq.mp (show i < f + j + 1 from h₂) with hlt | rfl
        · obtain ⟨zs, hperm, hhas, hsorted⟩ := hdone i h₁ hlt
          refine ⟨zs, hperm, hsame'.has hhas fun x hx hmem => ?_, hsorted⟩
          have hle := hbound.mono (show i + 1 ≤ f + j by omega) hin.le
          have hlen := hperm.length_eq.trans (h.pieces i (by omega)).length
          simp only [bucketRange, elem_mem_seg, Ptr.add_off, Ptr.add_arr, true_and] at hmem
          omega
        · exact hbucket
      · rw [← Nat.add_assoc]
        omega
      · rw [← Nat.add_assoc]
        exact seg_subset_add hmono (by omega)
  · rintro b' m' ⟨hemp, hdone, -⟩
    rw [Nat.add_sub_of_le hf] at hemp hdone
    exact ⟨hemp, hdone⟩

end

end Ps4o.InPlace
