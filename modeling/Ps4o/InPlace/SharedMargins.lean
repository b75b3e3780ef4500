import Ps4o.InPlace.Cleanup
import Ps4o.InPlace.Margins
import Ps4o.Program.Team

/-!
# The margins of several threads: the code

The threads share the array, and each of them has buffers, a swap block, and a part of the buckets.
When the blocks are in their buckets, every thread saves the excess at the end of its part
(`saveMargins`), and after a barrier it fills the margins of its buckets from the buffers of all
threads (`writeMargins` in `cleanup_margins.hpp`).

## The model

Elements are bits: moving them is copying. The buffers of all threads are one array, those of thread
`j` from bucket `j * kMaxBuckets` on, and so are the swap blocks. `cleanup` is a team of two stages:
in each of them, the threads take their steps in any order. A thread works on the sizes of the
buffers of its own buckets only.

## What is proved

* `sat_moveRange_bits` — moving a range of bits leaves the source as it is.
-/

namespace Ps4o.InPlace

open Ps4o.Program Ps4o.Storage Ps4o.Order Ps4o.Order.Stripes

variable {α : Type}

/-! ### The code -/

/-- The swap block of thread `j`. -/
def swapBlockOf (kBlockSize j : ℕ) : Ptr Area := ⟨.swap false, j * kBlockSize⟩

/-- What the threads know about the buckets. -/
structure Margins where
  numBuckets : ℕ
  bucketStart : ℕ → ℕ
  /-- `bucket_pointers_[i].getWrite()`. -/
  write : ℕ → ℕ
  /-- Whether `overflow_` is set. -/
  overflow : Bool

section
variable (comp : α → α → Bool) (cfg : Config) (kInitializedStorage : Bool) (kBlockSize : ℕ)
  (p : Ptr Area) (s : Margins)

/-- Saves margins at thread boundaries, of a thread whose buckets end before `lastBucket`. -/
def saveExcess (n : ℕ) (swap : Ptr Area) (lastBucket : ℕ) : Act Area α Saved := do
  let saved := saveMargins kBlockSize n s.bucketStart s.write lastBucket
  -- Read excess elements, if necessary
  Block.readFrom kInitializedStorage swap (p + saved.tail) saved.inSwapBuffer
  pure saved

/-- Writes to the head of bucket `i` what is not in a buffer, and answers where the elements from
the buffers go, and how many of them. -/
def writeHeadOf (overflowBucket : Option ℕ) (swap : Ptr Area) (saved : Saved) (i : ℕ) :
    Act Area α (Ptr Area × Option ℕ) :=
  let bstart := s.bucketStart i
  let bend := s.bucketStart (i + 1)
  let bwrite := s.write i
  let remaining := alignToNextBlock kBlockSize bstart - bstart
  if some i = overflowBucket ∧ s.overflow then
    if alignToNextBlock kBlockSize bend ≠ bwrite ∨
        (bend : ℤ) - (bwrite - kBlockSize) + remaining < kBlockSize then
      undefined
    else do
      let tailSize := kBlockSize - remaining
      -- Fill head
      moveRange overflowBlock (p + bstart) remaining
      -- Write remaining elements into tail
      let dst := p + (bwrite - kBlockSize)
      moveRange (overflowBlock + remaining) dst tailSize
      Block.reset kInitializedStorage overflowBlock kBlockSize
      pure (dst + tailSize, none)
  else if some i = saved.swapBucket ∧ saved.inSwapBuffer ≠ 0 then
    if remaining < saved.inSwapBuffer then
      undefined
    else do
      -- Write to head
      moveRange swap (p + bstart) saved.inSwapBuffer
      Block.reset kInitializedStorage swap saved.inSwapBuffer
      pure (p + bstart + saved.inSwapBuffer, some (remaining - saved.inSwapBuffer))
  else if bend < bwrite ∧ kBlockSize < bend - bstart then
    if alignToNextBlock kBlockSize bend ≠ bwrite ∨ remaining < bwrite - bend then
      undefined
    else do
      let headSize := bwrite - bend
      -- Write to head
      moveRange (p + bend) (p + bstart) headSize
      pure (p + bstart + headSize, some (remaining - headSize))
  else
    pure (p + bstart, some remaining)

/-- Writes the elements of buffer `k`, and answers where those of the next one go, and how many of
them. Any number is less than the largest one, for which `none` stands. -/
def writeBufferOf (b : Buffers) (k : ℕ) (dst : Ptr Area) (remaining : Option ℕ) (tail : Ptr Area) :
    Act Area α (Buffers × Ptr Area × Option ℕ) := do
  let src := Buffers.data kBlockSize k
  let count := b.size kBlockSize k
  let r ← match remaining with
    | none => do
      moveRange src dst count
      pure (dst + count, none)
    | some remaining =>
      if count ≤ remaining then do
        moveRange src dst count
        pure (dst + count, some (remaining - count))
      else do
        moveRange src dst remaining
        moveRange (src + remaining) tail (count - remaining)
        pure (tail + (count - remaining), none)
  let b ← b.reset kInitializedStorage kBlockSize k
  pure (b, r)

/-- Fills the margins of bucket `i` from the buffers of `numThreads` threads, and sorts it if it is
small or there is no further level. -/
def writeBucketOf (numThreads : ℕ) (lastLevel : Bool) (overflowBucket : Option ℕ) (swap : Ptr Area)
    (saved : Saved) (b : Buffers) (i : ℕ) : Act Area α Buffers := do
  let bstart := s.bucketStart i
  let bend := s.bucketStart (i + 1)
  let r ← writeHeadOf kInitializedStorage kBlockSize p s overflowBucket swap saved i
  -- Write elements from buffers
  let r ← Prog.loop (fun t (r : Buffers × Ptr Area × Option ℕ) =>
    writeBufferOf kInitializedStorage kBlockSize r.1 (t * cfg.kMaxBuckets + i) r.2.1 r.2.2
      (p + s.write i)) numThreads (b, r)
  -- Perform final base case sort here, while the data is still cached
  if lastLevel ∨ bend - bstart ≤ 2 * cfg.kBaseCaseSize then
    baseCaseSort comp (p + bstart) (bend - bstart)
  else
    pure ()
  pure r.1

/-- Fills the margins of a range of `n` elements from buffers, for the thread that has the buckets
from `firstBucket` to `lastBucket`. -/
def writeMarginsOf (n numThreads firstBucket lastBucket : ℕ) (overflowBucket : Option ℕ)
    (swap : Ptr Area) (saved : Saved) (b : Buffers) : Act Area α Buffers :=
  let lastLevel := n ≤ cfg.kSingleLevelThreshold
  Prog.loop (fun j b => writeBucketOf comp cfg kInitializedStorage kBlockSize p s numThreads
    lastLevel overflowBucket swap saved b (firstBucket + j)) (lastBucket - firstBucket) b

/-- The sizes of the buffers, when every thread has worked on the buffers of its buckets. -/
def Buffers.gather (numBuckets kMaxBuckets t : ℕ) (b : Buffers) (bs : Fin t → Buffers) : Buffers :=
  { b with ptr := fun k =>
      if h : owner numBuckets t (k % kMaxBuckets) < t
        then (bs ⟨owner numBuckets t (k % kMaxBuckets), h⟩).ptr k else b.ptr k }

/-- Cleanup: the buckets are distributed among `t` threads, which save margins, meet, and write
margins. -/
def cleanup (n t : ℕ) (b : Buffers) : Team (Cmd Area α) Cmd.Ans (Fin t) Buffers :=
  .stage (fun j : Fin t => saveExcess kInitializedStorage kBlockSize p s n
    (swapBlockOf kBlockSize j) (first s.numBuckets t (j + 1))) fun saved =>
  .stage (fun j => writeMarginsOf comp cfg kInitializedStorage kBlockSize p s n t
    (first s.numBuckets t j)
    (first s.numBuckets t (j + 1)) (computeOverflowBucket kBlockSize s.bucketStart s.numBuckets)
    (swapBlockOf kBlockSize j) (saved j) b) fun bs =>
  .done (b.gather s.numBuckets cfg.kMaxBuckets t bs)

end

/-! ### Moving bits -/

/-- Outside of these segments, the slots are as they were. -/
def Untouched (m m' : Mem Area α) (R : Set (Loc Area)) : Prop :=
  ∀ q, .elem q ∉ R → m'.slot q = m.slot q

section
variable {init : Bool} {k : ℕ} {src dst : Ptr Area} {m m' m₁ : Mem Area α} {R R' : Set (Loc Area)}
  {vs : List α}

theorem Untouched.refl (m : Mem Area α) (R : Set (Loc Area)) : Untouched m m R := fun _ _ => rfl

theorem Untouched.mono (h : Untouched m m' R) (hR : R ⊆ R') : Untouched m m' R' :=
  fun q hq => h q fun hr => hq (hR hr)

theorem Untouched.trans (h : Untouched m m₁ R) (h' : Untouched m₁ m' R) : Untouched m m' R :=
  fun q hq => (h' q hq).trans (h q hq)

theorem Untouched.has (h : Untouched m m' R) {q : Ptr Area} (hv : Has m q vs)
    (hd : ∀ i < vs.length, .elem (q + i) ∉ R) : Has m' q vs :=
  hv.of_eq fun i hi => (h _ (hd i hi)).symm

/-- Elements are copied one by one, however they are put where they go. -/
theorem sat_copyRange {w : Ptr Area → α → Act Area α Unit}
    (hw : ∀ (R : Set (Loc Area)) (q : Ptr Area) (v : α) (m : Mem Area α)
      (Q : Unit → Mem Area α → Prop), .elem q ∈ R →
      Q () (m.set q v) → Sat (copies Area α) R (w q v) m Q)
    (hn : vs.length = k) (hsrc : Has m src vs) (hne : ∀ i < k, ∀ j < k, src + i ≠ dst + j) :
    Sat (copies Area α) (seg src k ∪ seg dst k) (Prog.loop (fun i _ => do
        let v ← moveFrom (src + i)
        w (dst + i) v) k ()) m fun _ m' => Has m' dst vs ∧ Untouched m m' (seg dst k) := by
  subst hn
  refine (sat_loop (fun i _ m' => Has m' dst (vs.take i) ∧ Untouched m m' (seg dst i))
    ⟨by simp, .refl m _⟩ ?_).imp ?_
  · rintro i hi _ m' ⟨hhas, hsame⟩
    have hv : m'.slot (src + i) = vs[i] := by
      rw [hsame _ fun hmem => ?_]
      · exact hsrc i _ (List.getElem?_eq_getElem hi)
      · obtain ⟨j, hj, he⟩ := hmem
        exact hne i hi j (hj.trans hi) (Loc.elem.inj he)
    rw [sat_bind]
    refine sat_moveFrom_bits (.inl (elem_add_mem_seg.mpr hi))
      (hw _ _ _ _ _ (.inr (elem_add_mem_seg.mpr hi)) ⟨?_, ?_⟩)
    · rw [hv, List.take_add_one, List.getElem?_eq_getElem hi, Option.toList_some, has_append]
      refine ⟨hhas.set_of_ne fun j hj => ?_, has_cons.mpr ⟨?_, has_nil⟩⟩
      · rw [ne_eq, Ptr.add_inj]
        rw [List.length_take] at hj
        omega
      · rw [List.length_take_of_le hi.le, Mem.set_slot, Function.update_self]
    · intro q hq
      rw [Mem.set_slot, Function.update_of_ne]
      · exact hsame q fun hmem => hq (seg_mono (Nat.le_succ i) hmem)
      · rintro rfl
        exact hq (elem_add_mem_seg.mpr (Nat.lt_succ_self i))
  · rintro _ m' ⟨hhas, hsame⟩
    exact ⟨by rwa [List.take_length] at hhas, hsame⟩

theorem sat_moveRange_bits (hn : vs.length = k) (hsrc : Has m src vs)
    (hne : ∀ i < k, ∀ j < k, src + i ≠ dst + j) :
    Sat (copies Area α) (seg src k ∪ seg dst k) (moveRange src dst k) m fun _ m' =>
      Has m' dst vs ∧ Untouched m m' (seg dst k) :=
  sat_copyRange (fun _ _ _ _ _ => sat_assignTo_bits) hn hsrc hne

theorem sat_readFrom_bits (hn : vs.length = k) (hsrc : Has m src vs)
    (hne : ∀ i < k, ∀ j < k, src + i ≠ dst + j) :
    Sat (copies Area α) (seg src k ∪ seg dst k) (Block.readFrom init dst src k) m fun _ m' =>
      Has m' dst vs ∧ Untouched m m' (seg dst k) := by
  refine sat_copyRange (fun R q v m Q hR hQ => ?_) hn hsrc hne
  rw [put]
  split_ifs
  · exact sat_assignTo_bits hR hQ
  · exact sat_constructAt_bits hR hQ

/-- Destroying bits has no effect. -/
theorem sat_destroyRange_bits (q : Ptr Area) (k : ℕ) :
    Sat (copies Area α) (seg q k) (destroyRange init q k) m fun _ m' => m' = m := by
  rw [destroyRange]
  split_ifs
  · exact rfl
  · refine sat_loop (fun _ _ m' => m' = m) rfl ?_
    rintro i hi _ m' rfl
    exact sat_destroyAt_bits (elem_add_mem_seg.mpr hi) rfl

theorem sat_baseCaseSort_bits (comp : α → α → Bool) {q : Ptr Area} (h : Has m q vs) :
    Sat (copies Area α) (seg q vs.length) (baseCaseSort comp q vs.length) m fun _ m' =>
      Has m' q (insertionSorted comp vs) ∧ Untouched m m' (seg q vs.length) := by
  have hsat : Sat (slots Area α false) _ _ _ _ := sat_baseCaseSort comp (has_within h le_rfl)
  refine (sat_copies hsat rep_within).frame.imp ?_
  rintro _ m' ⟨⟨m₁, hhas, hrep⟩, hag⟩
  exact ⟨hrep.has hhas, fun q hq => (hag (.elem q) hq).symm⟩

end

end Ps4o.InPlace
