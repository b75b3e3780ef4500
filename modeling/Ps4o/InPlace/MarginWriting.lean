import Ps4o.BaseCase
import Ps4o.InPlace.HeadFilled
import Ps4o.InPlace.Margins
import Ps4o.InPlace.SequentialPermutation

/-!
# Filling the margins: the code

When the blocks are in their buckets, the elements in the buffers are still missing, and blocks may
reach beyond the ends of their buckets: the excess goes to the head of the bucket, before the first
block boundary, and what the buffers hold fills the rest of the head, and the tail (`writeMargins`
in `cleanup_margins.hpp`).

## What is proved

* `sat_moveApart` — what is moved to a head and a tail is there, and nowhere else.
* `sat_writeBuffer` — the elements of a buffer go to the head, and on to the tail when the head is
  full.
-/

namespace Ps4o.InPlace

open Ps4o.Program Ps4o.Storage Ps4o.Order

variable {α : Type}

/-! ### The code -/

section
variable (comp : α → α → Bool) (cfg : Config) (kInitializedStorage : Bool) (kBlockSize : ℕ)
  (p : Ptr Area)

/-- Writes the elements of a buffer: if there are no more than `remaining`, from `dst` on, else the
others from `tail` on. Any number is less than the largest one, for which `none` stands. -/
def writeBuffer (b : Buffers) (i : ℕ) (dst : Ptr Area) (remaining : Option ℕ) (tail : Ptr Area) :
    Act Area α Buffers := do
  let src := Buffers.data kBlockSize i
  let count := b.size kBlockSize i
  match remaining with
  | none => moveRange src dst count
  | some remaining =>
    if count ≤ remaining then
      moveRange src dst count
    else do
      moveRange src dst remaining
      moveRange (src + remaining) tail (count - remaining)
  b.reset kInitializedStorage kBlockSize i

/-- Writes to the head of bucket `i` what is not in a buffer, and answers where the elements from
the buffers go, and how many of them. -/
def writeHead (overflowBucket swapBucket : Option ℕ) (inSwapBuffer : ℕ) (s : Sorter α) (i : ℕ) :
    Act Area α (Ptr Area × Option ℕ) :=
  let bstart := s.bucketStart i
  let bend := s.bucketStart (i + 1)
  let bwrite := (s.data.bucketPointers i).w
  let remaining := alignToNextBlock kBlockSize bstart - bstart
  if some i = overflowBucket ∧ s.overflow then
    if (alignToNextBlock kBlockSize bend : ℤ) ≠ bwrite ∨
        (bend : ℤ) - (bwrite - kBlockSize) + remaining < kBlockSize then
      undefined
    else do
      let tailSize := kBlockSize - remaining
      -- Fill head
      moveRange overflowBlock (p + bstart) remaining
      -- Write remaining elements into tail
      let dst := p + (bwrite - kBlockSize).toNat
      moveRange (overflowBlock + remaining) dst tailSize
      Block.reset kInitializedStorage overflowBlock kBlockSize
      pure (dst + tailSize, none)
  else if some i = swapBucket ∧ inSwapBuffer ≠ 0 then
    if remaining < inSwapBuffer then
      undefined
    else do
      moveRange (swapBlockAt false) (p + bstart) inSwapBuffer
      Block.reset kInitializedStorage (swapBlockAt false) inSwapBuffer
      pure (p + (bstart + inSwapBuffer), some (remaining - inSwapBuffer))
  else if (bend : ℤ) < bwrite ∧ kBlockSize < bend - bstart then
    if (alignToNextBlock kBlockSize bend : ℤ) ≠ bwrite ∨ remaining < (bwrite - bend).toNat then
      undefined
    else do
      let headSize := (bwrite - bend).toNat
      moveRange (p + bend) (p + bstart) headSize
      pure (p + (bstart + headSize), some (remaining - headSize))
  else
    pure (p + bstart, some remaining)

/-- Fills the margins of bucket `i`, and sorts it if it is small or there is no further level. -/
def writeBucket (lastLevel : Bool) (overflowBucket swapBucket : Option ℕ) (inSwapBuffer : ℕ)
    (s : Sorter α) (i : ℕ) : Act Area α (Sorter α) := do
  let bstart := s.bucketStart i
  let bend := s.bucketStart (i + 1)
  let (dst, remaining) ← writeHead kInitializedStorage kBlockSize p overflowBucket
    swapBucket inSwapBuffer s i
  -- Write elements from buffers
  let buffers ← writeBuffer kInitializedStorage kBlockSize s.data.buffers i dst remaining
    (p + (s.data.bucketPointers i).w.toNat)
  -- Perform final base case sort here, while the data is still cached
  if lastLevel ∨ bend - bstart ≤ 2 * cfg.kBaseCaseSize then
    baseCaseSort comp (p + bstart) (bend - bstart)
  else
    pure ()
  pure { s with data := { s.data with buffers := buffers } }

/-- Fills the margins of a range of `n` elements from buffers, for one thread. -/
def writeMargins (n firstBucket lastBucket : ℕ) (overflowBucket swapBucket : Option ℕ)
    (inSwapBuffer : ℕ) (s : Sorter α) : Act Area α (Sorter α) :=
  let lastLevel := n ≤ cfg.kSingleLevelThreshold
  Prog.loop (fun j s => writeBucket comp cfg kInitializedStorage kBlockSize p
    lastLevel overflowBucket swapBucket
    inSwapBuffer s (firstBucket + j)) (lastBucket - firstBucket) s

end

/-! ### Writing buffers -/

section
variable {init : Bool} {B n i : ℕ} {p src dst tail : Ptr Area} {m m' : Mem Area (Slot α)}
  {b : Buffers} {vs l₁ l₂ : List α}

/-- Objects are left where elements have been moved from, and where they have been moved to. -/
theorem live_of_moves {k : ℕ} (h : Live m p n) (hk : vs.length = k)
    (hdst : Has m' dst (vs.map .full)) (hsrc : ∀ i < k, m'.slot (src + i) = .moved)
    (hf : Frame m m' (seg src k ∪ seg dst k)) : Live m' p n := by
  subst hk
  intro i hi
  by_cases hd : .elem (p + i) ∈ seg dst vs.length
  · obtain ⟨j, hj, he⟩ := hd
    rw [Loc.elem.inj he]
    exact live_of_has hdst j hj
  · by_cases hs : .elem (p + i) ∈ seg src vs.length
    · obtain ⟨j, hj, he⟩ := hs
      rw [Loc.elem.inj he, hsrc j hj]
      nofun
    · rw [hf _ fun hmem => hmem.elim hs hd]
      exact h i hi

/-- Objects are left in a segment that holds a list. -/
theorem live_of_frame (h : Live m p n) (hdst : Has m' dst (vs.map .full))
    (hf : Frame m m' (seg dst vs.length)) : Live m' p n := by
  intro i hi
  by_cases hd : .elem (p + i) ∈ seg dst vs.length
  · obtain ⟨j, hj, he⟩ := hd
    rw [Loc.elem.inj he]
    exact live_of_has hdst j hj
  · rw [hf _ hd]
    exact h i hi

/-- Elements have been moved into the array, `l₁` to one place and `l₂` to another. -/
structure MovedApart (n : ℕ) (p src dst : Ptr Area) (l₁ : List α) (tail : Ptr Area) (l₂ : List α)
    (m m' : Mem Area (Slot α)) : Prop where
  hasDst : Has m' dst (l₁.map .full)
  hasTail : Has m' tail (l₂.map .full)
  moved : ∀ j < (l₁ ++ l₂).length, m'.slot (src + j) = .moved
  live : Live m' p n
  frame : Frame m m' (seg dst l₁.length ∪ seg tail l₂.length ∪ seg src (l₁ ++ l₂).length)

section
variable {S : Set (Loc Area)} {k₁ k₂ : ℕ} (hlive : Live m p n) (hne : src.arr ≠ dst.arr)
  (hdst : seg dst l₁.length ⊆ seg p n) (hS : seg src l₁.length ∪ seg dst l₁.length ⊆ S)
  (hk₁ : l₁.length = k₁)
include hlive hne hdst hS hk₁

/-- Moving all of them to the first place. -/
theorem sat_moveTo (tail : Ptr Area) (hsrc : Has m src (l₁.map .full)) :
    Sat (slots Area α init) S (moveRange src dst k₁) m fun _ m' =>
      MovedApart n p src dst l₁ tail [] m m' := by
  have hlive' : Live m dst k₁ := by
    intro j hj
    obtain ⟨x, hx, he⟩ := hdst (elem_add_mem_seg.mpr (hk₁ ▸ hj))
    rw [Loc.elem.inj he]
    exact hlive x hx
  refine (sat_moveRange hk₁ hsrc hlive' fun j _ x _ => elem_add_ne hne).mono (hk₁ ▸ hS) ?_
  rintro _ m' ⟨hhas, hmoved, hframe⟩
  refine ⟨hhas, has_nil, by rwa [List.append_nil, hk₁],
    live_of_moves hlive hk₁ hhas hmoved hframe, hframe.mono ?_⟩
  rw [List.append_nil, hk₁]
  exact Set.union_subset Set.subset_union_right (Set.subset_union_left.trans Set.subset_union_left)

/-- Moving them to both places. -/
theorem sat_moveApart (hsrc : Has m src ((l₁ ++ l₂).map .full)) (hne' : src.arr ≠ tail.arr)
    (htail : seg tail l₂.length ⊆ seg p n) (hS' : seg (src + k₁) l₂.length ∪ seg tail l₂.length ⊆ S)
    (hk₂ : l₂.length = k₂) (hd : ∀ j < l₁.length, .elem (dst + j) ∉ seg tail l₂.length)
    {β : Type} {c : Act Area α β} {Q : β → Mem Area (Slot α) → Prop}
    (hc : ∀ m', MovedApart n p src dst l₁ tail l₂ m m' → Sat (slots Area α init) S c m' Q) :
    Sat (slots Area α init) S
      (do moveRange src dst k₁; moveRange (src + k₁) tail k₂; c) m Q := by
  subst hk₁
  rw [List.map_append, has_append, List.length_map] at hsrc
  rw [sat_bind]
  refine (sat_moveTo hlive hne hdst hS rfl tail hsrc.1).imp ?_
  rintro _ m₁ ⟨hhas₁, -, hmoved₁, hlive₁, hframe₁⟩
  rw [List.append_nil] at hmoved₁ hframe₁
  have hhas₂ : Has m₁ (src + l₁.length) (l₂.map .full) := by
    refine hframe₁.has hsrc.2 fun j hj hmem => ?_
    rw [Ptr.add_assoc] at hmem
    rcases hmem with (hmem | hmem) | hmem
    · exact notMem_seg_of_arr hne hmem
    · exact notMem_seg_of_arr hne' hmem
    · rw [elem_add_mem_seg] at hmem
      omega
  rw [sat_bind]
  have hne₂ : (src + l₁.length).arr ≠ tail.arr := hne'
  refine (sat_moveTo hlive₁ hne₂ htail hS' hk₂ tail hhas₂).imp ?_
  rintro _ m₂ ⟨hhas₃, -, hmoved₂, hlive₂, hframe₂⟩
  rw [List.append_nil] at hmoved₂ hframe₂
  have hlen : (l₁ ++ l₂).length = l₁.length + l₂.length := List.length_append
  refine hc m₂ ⟨hframe₂.has hhas₁ fun j hj hmem => ?_, hhas₃, fun j hj => ?_, hlive₂,
    (hframe₁.mono ?_).trans (hframe₂.mono ?_)⟩
  · rcases hmem with (hmem | hmem) | hmem
    · exact hd j hj hmem
    · exact hd j hj (seg_mono (Nat.zero_le _) hmem)
    · have hne₁ : dst.arr ≠ (src + l₁.length).arr := Ne.symm hne
      exact notMem_seg_of_arr hne₁ hmem
  · rcases Nat.lt_or_ge j l₁.length with hlt | hge
    · rw [hframe₂ _ fun hmem => ?_]
      · exact hmoved₁ j hlt
      · rcases hmem with (hmem | hmem) | hmem
        · exact notMem_seg_of_arr hne' hmem
        · exact notMem_seg_of_arr hne' hmem
        · simp only [elem_mem_seg, Ptr.add_off, Ptr.add_arr, true_and] at hmem
          omega
    · have := hmoved₂ (j - l₁.length) (by omega)
      rwa [Ptr.add_assoc, Nat.add_sub_of_le hge] at this
  · rw [hlen]
    exact Set.union_subset_union (Set.union_subset_union_right _ (seg_mono (Nat.zero_le _)))
      (seg_mono (Nat.le_add_right _ _))
  · rw [hlen]
    refine Set.union_subset_union ?_ (seg_subset le_rfl)
    exact Set.union_subset Set.subset_union_right
      ((seg_mono (Nat.zero_le _)).trans Set.subset_union_right)

end

/-- What a buffer held has been written, and the buffer is empty. -/
structure BufferWritten (init : Bool) (B n i : ℕ) (p dst : Ptr Area) (l₁ : List α) (tail : Ptr Area)
    (l₂ : List α) (b b' : Buffers) (m m' : Mem Area (Slot α)) : Prop where
  holds : b'.Holds init B m' i ([] : List α)
  eq : b' = b.resetBuffer B i
  hasDst : Has m' dst (l₁.map .full)
  hasTail : Has m' tail (l₂.map .full)
  live : Live m' p n
  frame : Frame m m' (seg dst l₁.length ∪ seg tail l₂.length ∪ seg (Buffers.data B i) B)

section
variable (h : b.Holds init B m i (l₁ ++ l₂)) (hp : p.arr = .input) (hdst : dst.arr = .input)
  (htail : tail.arr = .input)
include h hp hdst htail

/-- What the moves leave to `reset`. -/
theorem MovedApart.sat_reset {m₁ : Mem Area (Slot α)}
    (hm : MovedApart n p (Buffers.data B i) dst l₁ tail l₂ m m₁) :
    Sat (slots Area α init) (seg p n ∪ seg (Buffers.data B i) B) (b.reset init B i) m₁
      fun b' m' => BufferWritten init B n i p dst l₁ tail l₂ b b' m m' := by
  have hready : Ready init m₁ (Buffers.data B i + (l₁ ++ l₂).length) (B - (l₁ ++ l₂).length) := by
    refine hm.frame.ready h.ready fun x hx hmem => ?_
    rcases hmem with (hmem | hmem) | hmem
    · exact notMem_seg_of_arr (by simp [Buffers.data, hdst]) hmem
    · exact notMem_seg_of_arr (by simp [Buffers.data, htail]) hmem
    · rw [Ptr.add_assoc, elem_add_mem_seg] at hmem
      omega
  refine (Buffers.sat_reset h.ptr h.stop h.le (fun j hj => by simp [hm.moved j hj]) hready).mono
    Set.subset_union_right ?_
  rintro b' m' ⟨hb', rfl, hf'⟩
  refine ⟨hb', rfl, hf'.has hm.hasDst fun j _ => notMem_seg_of_arr (by simp [Buffers.data, hdst]),
    hf'.has hm.hasTail fun j _ => notMem_seg_of_arr (by simp [Buffers.data, htail]),
    hf'.live hm.live fun j _ => notMem_seg_of_arr (by simp [Buffers.data, hp]), ?_⟩
  refine (hm.frame.mono ?_).trans (hf'.mono Set.subset_union_right)
  exact Set.union_subset_union_right _ (seg_mono h.le)

/-- **The elements of a buffer** go to the head, and on to the tail when the head is full. -/
theorem sat_writeBuffer {remaining : Option ℕ}
    (hr : remaining = some l₁.length ∨ l₂ = [] ∧ remaining.elim True (l₁.length ≤ ·))
    (hlive : Live m p n) (h₁ : seg dst l₁.length ⊆ seg p n) (h₂ : seg tail l₂.length ⊆ seg p n)
    (hd : ∀ j < l₁.length, .elem (dst + j) ∉ seg tail l₂.length) :
    Sat (slots Area α init) (seg p n ∪ seg (Buffers.data B i) B)
      (writeBuffer init B b i dst remaining tail) m
      fun b' m' => BufferWritten init B n i p dst l₁ tail l₂ b b' m m' := by
  have hle := h.le
  have hlen : (l₁ ++ l₂).length = l₁.length + l₂.length := List.length_append
  have hne : (Buffers.data B i).arr ≠ dst.arr := by simp [Buffers.data, hdst]
  have hS : seg (Buffers.data B i) l₁.length ∪ seg dst l₁.length ⊆
      seg p n ∪ seg (Buffers.data B i) B :=
    Set.union_subset ((seg_mono (by omega)).trans Set.subset_union_right)
      (h₁.trans Set.subset_union_left)
  -- all elements fit
  have hall : l₂ = [] → Sat (slots Area α init) (seg p n ∪ seg (Buffers.data B i) B)
      (do moveRange (Buffers.data B i) dst l₁.length; b.reset init B i) m
      fun b' m' => BufferWritten init B n i p dst l₁ tail l₂ b b' m m' := by
    rintro rfl
    have hhas := h.has
    rw [List.append_nil] at hhas
    rw [sat_bind]
    exact (sat_moveTo hlive hne h₁ hS rfl tail hhas).imp fun _ m₁ hm =>
      hm.sat_reset h hp hdst htail
  simp only [writeBuffer, h.size]
  rcases hr with rfl | ⟨rfl, hr⟩
  · dsimp only
    split
    · next hle' =>
      have hnil : l₂ = [] := List.length_eq_zero_iff.mp (by omega)
      rw [show (l₁ ++ l₂).length = l₁.length by rw [hnil, List.append_nil]]
      exact hall hnil
    · rw [hlen, Nat.add_sub_cancel_left]
      refine sat_moveApart hlive hne h₁ hS rfl h.has (by simp [Buffers.data, htail]) h₂ ?_ rfl hd
        fun m₁ hm => hm.sat_reset h hp hdst htail
      exact Set.union_subset ((seg_subset (by omega)).trans Set.subset_union_right)
        (h₂.trans Set.subset_union_left)
  · cases remaining with
    | none =>
      rw [List.append_nil]
      exact hall rfl
    | some r =>
      rw [List.append_nil]
      dsimp only
      rw [if_pos (show l₁.length ≤ r from hr)]
      exact hall rfl

end

end

end Ps4o.InPlace
