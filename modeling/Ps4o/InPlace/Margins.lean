import Mathlib.Logic.Function.Basic
import Ps4o.InPlace.Blocks
import Ps4o.PostProcessing

/-!
# Saving margins

After the blocks have been permuted, the last block of a bucket may reach beyond its end, into the
buckets after it. Where the buckets of a thread end, this excess lies in buckets of other threads;
every thread saves the excess at its end (`saveMargins` in `cleanup_margins.hpp`) before all of them
write their buckets.

## The model

`saveMargins` says what a thread saves. The threads move elements one by one, in any order; a move
leaves its source without the element.

## What is proved

* `saveMargins_eq`, `saveMargins_cases` — when a thread saves anything, and what.
* `marginsSaved_iff` — every element that lies beyond the end of its bucket and beyond the end of
  the buckets of its thread is moved by this thread alone, into its swap block, and every thread
  that saves anything saves the excess of a bucket of its own, just when the excess of no bucket
  reaches beyond the end of the buckets of a later thread.
-/

namespace Ps4o.InPlace

open Ps4o.Order.Stripes

/-! ### The code -/

/-- What a thread has saved: of which bucket, if any, from where on, and how many elements. -/
structure Saved where
  /-- The bucket whose excess has been saved. -/
  swapBucket : Option ℕ
  /-- Where the excess begins. -/
  tail : ℕ
  /-- The number of elements in the swap block. -/
  inSwapBuffer : ℕ
  deriving DecidableEq

/-- The scan down from `lastBucket` for the bucket that the last block belongs to. -/
def bucketOfLastBlock (bss : ℕ → ℕ) (startOfLastBlock : ℕ) : (lastBucket : ℕ) → ℕ
  | 0 => 0
  | lastBucket + 1 =>
    if startOfLastBlock < bss lastBucket then bucketOfLastBlock bss startOfLastBlock lastBucket
      else lastBucket

/-- `saveMargins`: what the thread saves whose buckets end before `lastBucket`, when `write` is
where the next block of each bucket would be written. -/
def saveMargins (kBlockSize n : ℕ) (bss write : ℕ → ℕ) (lastBucket : ℕ) : Saved :=
  let tail := bss lastBucket
  let stop := alignToNextBlock kBlockSize tail
  -- there is no overlap, or we are in the overflow case
  if tail = stop ∨ n < stop then ⟨none, tail, 0⟩
  else
    let lastBucket := bucketOfLastBlock bss (stop - kBlockSize) lastBucket
    -- the last block has not been written
    if write lastBucket < stop then ⟨none, tail, 0⟩
    else ⟨some lastBucket, bss (lastBucket + 1), stop - bss (lastBucket + 1)⟩

/-- The blocks have been permuted: the elements of every bucket that do not fill blocks are in the
buffers of the `t` threads, at least one if there are any blocks, and the blocks stand one after the
other from the first block boundary of the bucket on; if the last one would reach beyond the end of
the array, it is in the overflow block instead. -/
structure Permuted (kBlockSize nb t : ℕ) (bss blocks write : ℕ → ℕ) : Prop where
  fits : ∀ b < nb, blocks b * kBlockSize ≤ bss (b + 1) - bss b
  buffered : ∀ b < nb, bss (b + 1) - bss b - blocks b * kBlockSize ≤ t * kBlockSize
  flushed : ∀ b < nb, 1 ≤ blocks b → blocks b * kBlockSize < bss (b + 1) - bss b
  write : ∀ b < nb, write b = alignToNextBlock kBlockSize (bss b) + blocks b * kBlockSize

/-- Position `x` holds an element of a block of bucket `b`. -/
def Holds (kBlockSize n : ℕ) (bss write : ℕ → ℕ) (b x : ℕ) : Prop :=
  alignToNextBlock kBlockSize (bss b) ≤ x ∧ x < write b ∧ (x / kBlockSize + 1) * kBlockSize ≤ n

/-- A thread moves the element at a position. -/
def Saved.Moves (s : Saved) (x : ℕ) : Prop := s.tail ≤ x ∧ x < s.tail + s.inSwapBuffer

/-- The array, the swap blocks of `t` threads, and how many elements each thread has moved. -/
structure Saving (t : ℕ) (α : Type) where
  /-- The array. -/
  array : ℕ → Option α
  /-- `swap[0]` of each thread. -/
  swap : Fin t → ℕ → Option α
  /-- How many elements each thread has moved. -/
  moved : Fin t → ℕ

/-- A thread moves its next element. -/
inductive Saving.Step {t : ℕ} {α : Type} (plan : Fin t → Saved) :
    Saving t α → Saving t α → Prop where
  /-- Thread `i` moves an element. -/
  | move (s : Saving t α) (i : Fin t) (h : s.moved i < (plan i).inSwapBuffer) :
      Step plan s ⟨Function.update s.array ((plan i).tail + s.moved i) none,
        Function.update s.swap i (Function.update (s.swap i) (s.moved i)
          (s.array ((plan i).tail + s.moved i))),
        Function.update s.moved i (s.moved i + 1)⟩

/-- What the threads can come to when the array holds `xs`, and the swap blocks hold anything. -/
inductive Saving.Reachable {t : ℕ} {α : Type} (plan : Fin t → Saved) (xs : ℕ → α) :
    Saving t α → Prop where
  /-- Nothing has been moved. -/
  | start (swap : Fin t → ℕ → Option α) : Reachable plan xs ⟨fun x => some (xs x), swap, fun _ => 0⟩
  /-- A thread moves an element. -/
  | step {s s' : Saving t α} (h : Reachable plan xs s) (hs : Step plan s s') : Reachable plan xs s'

/-! ### What a thread saves -/

section
variable {B n nb t : ℕ} {bss blocks write : ℕ → ℕ}

theorem bucketOfLastBlock_spec {start k : ℕ} (h₀ : bss 0 ≤ start) (hk : 1 ≤ k) :
    bucketOfLastBlock bss start k < k ∧ bss (bucketOfLastBlock bss start k) ≤ start ∧
      ∀ c, bucketOfLastBlock bss start k < c → c < k → start < bss c := by
  induction k with
  | zero => omega
  | succ k ih =>
    rw [bucketOfLastBlock]
    split
    · next hlt =>
      have hk' : 1 ≤ k := Nat.one_le_iff_ne_zero.mpr fun h => by
        rw [h] at hlt
        omega
      obtain ⟨h₁, h₂, h₃⟩ := ih hk'
      refine ⟨by omega, h₂, fun c hc₁ hc₂ => ?_⟩
      rcases Nat.lt_or_ge c k with hc | hc
      · exact h₃ c hc₁ hc
      · rwa [show c = k by omega]
    · next hge => exact ⟨by omega, by omega, fun c hc₁ hc₂ => by omega⟩

variable (h : Boundaries false nb n bss) (hB : 1 ≤ B) (hp : Permuted B nb t bss blocks write)
include hp

theorem Permuted.dvd {b : ℕ} (hb : b < nb) : B ∣ write b := by
  rw [hp.write b hb]
  exact Nat.dvd_add (dvd_alignToNextBlock B _) (Dvd.intro_left _ rfl)

include h hB

/-- The blocks of a bucket reach to the next block boundary after its end at most. -/
theorem Permuted.write_le {b : ℕ} (hb : b < nb) : write b ≤ alignToNextBlock B (bss (b + 1)) := by
  have hstep := h.step b hb
  have hlt := alignToNextBlock_lt hB (bss b)
  have hle := le_alignToNextBlock hB (bss (b + 1))
  have hfits := hp.fits b hb
  refine le_of_lt_add (hp.dvd hb) (dvd_alignToNextBlock B _) ?_
  rw [hp.write b hb]
  omega

/-- **What a thread saves**: the excess of the bucket whose last block reaches beyond the end of the
buckets of the thread. -/
theorem saveMargins_eq {b k : ℕ} (hbk : b < k) (hk : k ≤ nb) (hblocks : 1 ≤ blocks b)
    (hlt : bss k < write b) (hn : write b ≤ n) :
    saveMargins B n bss write k = ⟨some b, bss (b + 1), write b - bss (b + 1)⟩ := by
  have hb : b < nb := by omega
  have hmono := h.mono (show b + 1 ≤ k by omega) hk
  have hdvd := hp.dvd hb
  have hwrite : alignToNextBlock B (bss (b + 1)) = write b :=
    le_antisymm ((alignToNextBlock_le_iff hB hdvd).mpr (by omega)) (hp.write_le h hB hb)
  have hend := alignToNextBlock_lt hB (bss (b + 1))
  have hstop : alignToNextBlock B (bss k) = write b := alignToNextBlock_eq hB hdvd hlt.le (by omega)
  have hstart : bss b + B ≤ write b := by
    have h₁ := le_alignToNextBlock hB (bss b)
    have h₂ : B ≤ blocks b * B := Nat.le_mul_of_pos_left B hblocks
    rw [hp.write b hb]
    omega
  obtain ⟨h₁, h₂, h₃⟩ := @bucketOfLastBlock_spec bss (write b - B) k
    (by rw [h.zero]; exact Nat.zero_le _) (by omega)
  have howner : bucketOfLastBlock bss (write b - B) k = b := by
    rcases Nat.lt_trichotomy (bucketOfLastBlock bss (write b - B) k) b with hlt' | heq | hgt
    · have := h₃ b hlt' hbk
      omega
    · exact heq
    · have := h.mono (show b + 1 ≤ bucketOfLastBlock bss (write b - B) k by omega) (by omega)
      omega
  simp only [saveMargins, hstop, howner, lt_irrefl, if_false]
  rw [if_neg (by omega)]

/-- A thread that saves anything saves the excess of such a bucket. -/
theorem saveMargins_cases {k : ℕ} (hk₁ : 1 ≤ k) (hk : k ≤ nb)
    (hpos : 0 < (saveMargins B n bss write k).inSwapBuffer) :
    ∃ b < k, saveMargins B n bss write k = ⟨some b, bss (b + 1), write b - bss (b + 1)⟩ ∧
    1 ≤ blocks b ∧ bss k < write b ∧ write b ≤ n := by
  have hle := le_alignToNextBlock hB (bss k)
  have hlt := alignToNextBlock_lt hB (bss k)
  simp only [saveMargins] at hpos ⊢
  split at hpos
  · exact absurd hpos (lt_irrefl 0)
  · next hno =>
    rw [if_neg hno]
    obtain ⟨h₁, h₂, h₃⟩ := @bucketOfLastBlock_spec bss (alignToNextBlock B (bss k) - B) k
      (by rw [h.zero]; exact Nat.zero_le _) hk₁
    set b := bucketOfLastBlock bss (alignToNextBlock B (bss k) - B) k
    split at hpos
    · exact absurd hpos (lt_irrefl 0)
    · next hwritten =>
      rw [if_neg hwritten]
      have hmono := h.mono (show b + 1 ≤ k by omega) hk
      have hwrite : write b = alignToNextBlock B (bss k) :=
        le_antisymm ((hp.write_le h hB (by omega)).trans (alignToNextBlock_mono hB hmono))
        (by omega)
      have hB' : B ≤ alignToNextBlock B (bss k) := by
        obtain ⟨j, hj⟩ := dvd_alignToNextBlock B (bss k)
        have hj' : 1 ≤ j := Nat.one_le_iff_ne_zero.mpr fun hzero => by
          rw [hzero] at hj
          omega
        rw [hj]
        exact Nat.le_mul_of_pos_right B hj'
      have hblocks : 1 ≤ blocks b := Nat.one_le_iff_ne_zero.mpr fun hzero => by
        have hw := hp.write b (by omega)
        have := alignToNextBlock_lt hB (bss b)
        rw [hzero] at hw
        omega
      exact ⟨b, h₁, by rw [hwrite], hblocks, by omega, by omega⟩

end

/-! ### Moving -/

section
variable {t : ℕ} {α : Type} {plan : Fin t → Saved} {xs : ℕ → α} {s : Saving t α}

/-- **Threads that move different elements have them in their swap blocks.** -/
theorem Saving.Reachable.moved (h : Reachable plan xs s)
    (hone : ∀ i j x, (plan i).Moves x → (plan j).Moves x → i = j) :
    (∀ i, s.moved i ≤ (plan i).inSwapBuffer) ∧
    (∀ i, ∀ k < s.moved i, s.swap i k = some (xs ((plan i).tail + k))) ∧
      ∀ x, (∀ i, ¬ ((plan i).tail ≤ x ∧ x < (plan i).tail + s.moved i)) →
      s.array x = some (xs x) := by
  induction h with
  | start swap =>
    exact ⟨fun _ => Nat.zero_le _, fun _ _ hk => absurd hk (Nat.not_lt_zero _), fun _ _ => rfl⟩
  | @step s s' _ hs ih =>
    obtain ⟨hle, hswap, harray⟩ := ih
    cases hs with
    | move i hi =>
      -- nobody else has moved the element
      have hnext : s.array ((plan i).tail + s.moved i) = some (xs ((plan i).tail + s.moved i)) := by
        refine harray _ fun j hj => ?_
        have hij := hone i j _ ⟨Nat.le_add_right _ _, Nat.add_lt_add_left hi _⟩
          ⟨hj.1, hj.2.trans_le (Nat.add_le_add_left (hle j) _)⟩
        rw [← hij] at hj
        exact absurd hj.2 (lt_irrefl _)
      refine ⟨fun j => ?_, fun j k hk => ?_, fun x hx => ?_⟩
      · rcases eq_or_ne j i with rfl | hji
        · simpa only [Function.update_self] using Nat.succ_le_of_lt hi
        · simpa only [Function.update_of_ne hji] using hle j
      · rcases eq_or_ne j i with rfl | hji
        · simp only [Function.update_self] at hk ⊢
          rcases Nat.lt_succ_iff_lt_or_eq.mp hk with hk | rfl
          · rw [Function.update_of_ne hk.ne]
            exact hswap j k hk
          · rw [Function.update_self]
            exact hnext
        · simp only [Function.update_of_ne hji] at hk ⊢
          exact hswap j k hk
      · have hxi := hx i
        simp only [Function.update_self] at hxi
        dsimp only
        rw [Function.update_of_ne (by omega)]
        refine harray x fun j hj => ?_
        rcases eq_or_ne j i with rfl | hji
        · omega
        · have := hx j
          simp only [Function.update_of_ne hji] at this
          exact this hj

end

/-! ### Exclusive saving -/

/-- What each of `t` threads saves. -/
def savings (B n nb t : ℕ) (bss write : ℕ → ℕ) (i : Fin t) : Saved :=
  saveMargins B n bss write (first nb t (i + 1))

/-- Every element that lies beyond the end of its bucket and beyond the end of the buckets of its
thread is moved by this thread and no other, and in the end it is in the swap block of the thread;
and every thread that has saved anything has saved the excess of a bucket of its own. -/
def MarginsSaved {α : Type} (B n nb t : ℕ) (bss write : ℕ → ℕ) (xs : ℕ → α) : Prop :=
  (∀ s, Saving.Reachable (savings B n nb t bss write) xs s →
    (∀ i, s.moved i = (savings B n nb t bss write i).inSwapBuffer) →
      ∀ (i : Fin t) (b x : ℕ), first nb t i ≤ b → b < first nb t (i + 1) →
        Holds B n bss write b x → bss (b + 1) ≤ x →
        bss (first nb t (i + 1)) ≤ x →
          (∀ j, (savings B n nb t bss write j).Moves x ↔ j = i) ∧
            ∃ k < (savings B n nb t bss write i).inSwapBuffer, s.swap i k = some (xs x)) ∧
  ∀ i, 0 < (savings B n nb t bss write i).inSwapBuffer →
    ∃ b, (savings B n nb t bss write i).swapBucket = some b ∧
    first nb t i ≤ b ∧ b < first nb t (i + 1)

/-- No bucket of an earlier thread has a block in the array that reaches beyond the end of the
buckets of a later thread. -/
def NoSharedExcess (n nb t : ℕ) (bss blocks write : ℕ → ℕ) : Prop :=
  ∀ i < t, ∀ b < first nb t i, 1 ≤ blocks b → write b ≤ n → write b ≤ bss (first nb t (i + 1))

instance {n nb t : ℕ} {bss blocks write : ℕ → ℕ} :
    Decidable (NoSharedExcess n nb t bss blocks write) :=
  inferInstanceAs (Decidable (∀ i < t, ∀ b < first nb t i,
    1 ≤ blocks b → write b ≤ n → write b ≤ bss (first nb t (i + 1))))

section
variable {B n nb t : ℕ} {bss blocks write : ℕ → ℕ} (h : Boundaries false nb n bss) (hB : 1 ≤ B)
  (hp : Permuted B nb t bss blocks write)
include h hB hp

/-- What a thread saves is the excess of the last block of a bucket, which ends with the array at
most. -/
theorem savings_of_pos (ht : 1 ≤ t) {i : Fin t}
    (hpos : 0 < (savings B n nb t bss write i).inSwapBuffer) :
    ∃ b < first nb t (i + 1), savings B n nb t bss write i =
      ⟨some b, bss (b + 1), write b - bss (b + 1)⟩ ∧ 1 ≤ blocks b ∧
      bss (first nb t (i + 1)) < write b ∧ write b ≤ n := by
  have hfirst : 1 ≤ first nb t (i + 1) := by
    have hw := width_pos ht h.pos
    have hmul : width nb t ≤ (i + 1 : ℕ) * width nb t := Nat.le_mul_of_pos_left _ (Nat.succ_pos _)
    have := h.pos
    unfold first
    omega
  exact saveMargins_cases h hB hp hfirst first_le hpos

/-- The last block of a bucket: it ends where the next block is written, and the bucket ends in
it. -/
theorem Permuted.last_block {b x : ℕ} (hb : b < nb) (hblocks : 1 ≤ blocks b) (hx₁ : bss (b + 1) ≤ x)
    (hx₂ : x < write b) :
    bss b + B ≤ write b ∧ write b < bss (b + 1) + B ∧ write b = (x / B + 1) * B := by
  have hdvd := hp.dvd hb
  have h₁ := le_alignToNextBlock hB (bss b)
  have h₂ : B ≤ blocks b * B := Nat.le_mul_of_pos_left B hblocks
  have h₃ := hp.write b hb
  have h₄ := hp.write_le h hB hb
  have h₅ := alignToNextBlock_lt hB (bss (b + 1))
  refine ⟨by omega, by omega, ?_⟩
  have h₆ := Nat.div_mul_le_self x B
  have h₇ := Nat.lt_div_mul_add (a := x) (show 0 < B by omega)
  rw [Nat.succ_mul]
  have hdvd' : B ∣ x / B * B + B := Nat.dvd_add (Dvd.intro_left _ rfl) (dvd_refl B)
  exact le_antisymm (le_of_lt_add hdvd hdvd' (by omega)) (le_of_lt_add hdvd' hdvd (by omega))

/-- **No element is moved by two threads.** -/
theorem savings_unique (ht : 1 ≤ t) (hno : NoSharedExcess n nb t bss blocks write) {i j : Fin t}
    {x : ℕ} (hi : (savings B n nb t bss write i).Moves x)
    (hj : (savings B n nb t bss write j).Moves x) : i = j := by
  have hpos : ∀ {i}, (savings B n nb t bss write i).Moves x →
      0 < (savings B n nb t bss write i).inSwapBuffer :=
    fun hm => by
      obtain ⟨h₁, h₂⟩ := hm
      omega
  obtain ⟨b, hb, heq, hblocks, hlt, hn⟩ := savings_of_pos h hB hp ht (hpos hi)
  obtain ⟨c, hc, heq', hblocks', hlt', hn'⟩ := savings_of_pos h hB hp ht (hpos hj)
  rw [heq] at hi
  rw [heq'] at hj
  have hbn : b < nb := hb.trans_le first_le
  have hcn : c < nb := hc.trans_le first_le
  obtain ⟨hi₁, hi₂⟩ : bss (b + 1) ≤ x ∧ x < bss (b + 1) + (write b - bss (b + 1)) := hi
  obtain ⟨hj₁, hj₂⟩ : bss (c + 1) ≤ x ∧ x < bss (c + 1) + (write c - bss (c + 1)) := hj
  obtain ⟨hb₁, hb₂, hb₃⟩ := hp.last_block h hB hbn hblocks hi₁ (by omega)
  obtain ⟨hc₁, hc₂, hc₃⟩ := hp.last_block h hB hcn hblocks' hj₁ (by omega)
  -- it is the bucket in which the block begins
  obtain rfl : b = c := h.eq_of_mem (x := write b - B) hbn hcn (by omega)
    (by omega) (by omega) (by omega)
  have hfi : first nb t i ≤ b := by
    by_contra hlt'
    have := hno i i.isLt b (by omega) hblocks hn
    omega
  have hfj : first nb t j ≤ b := by
    by_contra hlt'
    have := hno j j.isLt b (by omega) hblocks hn
    omega
  exact Fin.ext (((mem_iff ht hbn).mp ⟨hfi, hb⟩).symm.trans ((mem_iff ht hbn).mp ⟨hfj, hc⟩))

/-- **Saving margins is exclusive just when no excess reaches beyond the end of the buckets of a
later thread.** -/
theorem marginsSaved_iff {α : Type} (ht : 1 ≤ t) (xs : ℕ → α) :
    MarginsSaved B n nb t bss write xs ↔ NoSharedExcess n nb t bss blocks write := by
  constructor
  · rintro ⟨-, hown⟩ i hi b hb hblocks hn
    by_contra hlt
    have hb' : b < first nb t (i + 1) := hb.trans_le first_le_succ
    have heq : savings B n nb t bss write ⟨i, hi⟩ = ⟨some b, bss (b + 1), write b - bss (b + 1)⟩ :=
      saveMargins_eq h hB hp hb' first_le hblocks (Nat.lt_of_not_le hlt) hn
    have hmono := h.mono (show b + 1 ≤ first nb t (i + 1) by omega) first_le
    obtain ⟨c, hc, hge, -⟩ := hown ⟨i, hi⟩ (by rw [heq]; exact Nat.sub_pos_of_lt (by omega))
    rw [heq] at hc
    obtain rfl := Option.some.inj hc
    exact absurd hb (by simpa using hge)
  · intro hno
    have hone := fun i j x => savings_unique (i := i) (j := j) (x := x) h hB hp ht hno
    refine ⟨fun s hs hdone i b x hb₁ hb₂ hx hend hbeyond => ?_, fun i hpos => ?_⟩
    · have hbn : b < nb := hb₂.trans_le first_le
      obtain ⟨hx₁, hx₂, hx₃⟩ := hx
      have hblocks : 1 ≤ blocks b := Nat.one_le_iff_ne_zero.mpr fun hzero => by
        have := hp.write b hbn
        rw [hzero] at this
        omega
      obtain ⟨-, -, hblock⟩ := hp.last_block h hB hbn hblocks hend hx₂
      have heq : savings B n nb t bss write i = ⟨some b, bss (b + 1), write b - bss (b + 1)⟩ :=
        saveMargins_eq h hB hp hb₂ first_le hblocks (by omega) (by omega)
      have hmoves : (savings B n nb t bss write i).Moves x := by
        rw [heq]
        exact ⟨hend, by dsimp only; omega⟩
      refine ⟨fun j => ⟨fun hj => hone j i x hj hmoves, fun hj => hj ▸ hmoves⟩,
        x - bss (b + 1), ?_, ?_⟩
      · rw [heq]
        dsimp only
        omega
      · have hswap := (hs.moved hone).2.1 i (x - bss (b + 1))
          (by rw [hdone i, heq]; dsimp only; omega)
        rwa [heq, Nat.add_sub_of_le hend] at hswap
    · obtain ⟨b, hb, heq, hblocks, hlt, hn⟩ := savings_of_pos h hB hp ht hpos
      refine ⟨b, by rw [heq], ?_, hb⟩
      by_contra hlt'
      have := hno i i.isLt b (by omega) hblocks hn
      omega

end

/-- A large bucket, whose last block reaches over five buckets of one element each. -/
def fewTiny (b : ℕ) : ℕ :=
  if b = 0 then 0 else if b = 1 then 100 else if b ≤ 7 then 2998 + b else 5000

/-- The full blocks of 256 elements. -/
def fewTinyBlocks (b : ℕ) : ℕ := if b = 1 then 11 else if b = 7 then 7 else 0

/-- Where the next block of each bucket would be written. -/
def fewTinyWrite (b : ℕ) : ℕ := alignToNextBlock 256 (fewTiny b) + fewTinyBlocks b * 256

theorem fewTiny_boundaries : Boundaries false 8 5000 fewTiny :=
  ⟨by decide, rfl, rfl, by decide, fun h => absurd h Bool.false_ne_true⟩

theorem fewTiny_permuted {t : ℕ} (ht : 1 ≤ t) :
    Permuted 256 8 t fewTiny fewTinyBlocks fewTinyWrite where
  fits := by decide
  buffered b hb := by
    have hle : ∀ b < 8, fewTiny (b + 1) - fewTiny b - fewTinyBlocks b * 256 ≤ 256 := by decide
    exact (hle b hb).trans (Nat.le_mul_of_pos_left 256 ht)
  flushed := by decide
  write _ _ := rfl

/-- Two threads save one margin: that of the large bucket, which is the first one's. -/
theorem marginsSaved_fewTiny : MarginsSaved 256 5000 8 2 fewTiny fewTinyWrite id :=
  (marginsSaved_iff fewTiny_boundaries (by decide) (fewTiny_permuted (by decide))
    (by decide) id).mpr (by decide)

/-- Of four threads, three save the excess of the large bucket. -/
theorem not_marginsSaved_fewTiny : ¬ MarginsSaved 256 5000 8 4 fewTiny fewTinyWrite id := by
  rw [marginsSaved_iff fewTiny_boundaries (by decide) (fewTiny_permuted (by decide)) (by decide) id]
  intro hno
  exact absurd (hno 1 (by decide) 1 (by decide) (by decide) (by decide)) (by decide)

end Ps4o.InPlace
