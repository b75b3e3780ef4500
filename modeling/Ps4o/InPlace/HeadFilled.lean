import Ps4o.InPlace.Buffers

/-!
# The head and the tail of a bucket

Filling the margins of a bucket is the same with one thread and with several: what is in its blocks
beyond its end, or in the overflow block, goes to its head, and what the buffers hold goes around
the blocks. Only the moves differ: objects with one thread, bits with several.

## What is proved

* `Extent.align`, `Extent.excess` — how much lies beyond the end of a bucket, and how much room
  there is in its head.
* `Extent.around`, `Extent.headFilled_excess`, `Extent.headFilled_overflow` — the bucket after its
  head has been written, in each of the cases.
* `HeadFilled.filled` — the bucket after the elements of the buffers have been written.
-/

namespace Ps4o.InPlace

open Ps4o.Program Ps4o.Storage

/-! ### The extent of a bucket -/

/-- A bucket from `start` to `stop`, whose blocks end at `write`: `main` elements of its blocks are
in the array, its last block may be the overflow block, and `rest` elements are in buffers. -/
structure Extent (B n start stop write blocks : ℕ) (o : Bool) (main rest : ℕ) : Prop where
  write_eq : write = alignToNextBlock B start + blocks * B
  size : stop = start + blocks * B + rest
  le_n : stop ≤ n
  lazy : 1 ≤ blocks → 0 < rest
  noOverflow : o = false → main = blocks * B ∧ (1 ≤ blocks → write ≤ n)
  overflow : o = true → main + B = blocks * B ∧ n < write

section
variable {B n start stop write blocks main rest : ℕ} {o : Bool} (hB : 1 ≤ B)
include hB

/-- There is a block if the last one is the overflow block. -/
theorem Extent.blocks_of_overflow (h : Extent B n start stop write blocks true main rest) :
    1 ≤ blocks := by
  obtain ⟨hmain, -⟩ := h.overflow rfl
  apply Nat.one_le_iff_ne_zero.mpr
  rintro rfl
  rw [Nat.zero_mul] at hmain
  omega

/-- There is a block if the blocks end beyond a bucket that is larger than a block. -/
theorem Extent.blocks_of_excess (h : Extent B n start stop write blocks o main rest)
    (hlt : stop < write) (hlarge : B < stop - start) : 1 ≤ blocks := by
  have hhead := alignToNextBlock_lt hB start
  have hwrite := h.write_eq
  apply Nat.one_le_iff_ne_zero.mpr
  rintro rfl
  rw [Nat.zero_mul] at hwrite
  omega

/-- The block of the bucket at its end, when that is not the end of the block. -/
theorem Extent.align (h : Extent B n start stop write blocks o main rest) (hblocks : 1 ≤ blocks)
    (hle : stop ≤ write) : alignToNextBlock B stop = write := by
  have hlt := alignToNextBlock_lt hB start
  have hpos := h.lazy hblocks
  have hsize := h.size
  have hwrite := h.write_eq
  rw [hwrite] at hle ⊢
  apply alignToNextBlock_eq hB _ hle
  · omega
  · exact Nat.dvd_add (dvd_alignToNextBlock B start) (Dvd.intro_left blocks rfl)

/-- The excess of a bucket and the elements of the buffers fit into its head exactly. -/
theorem Extent.excess (h : Extent B n start stop write blocks false main rest)
    (hlt : stop < write) (hblocks : 1 ≤ blocks) :
    main = stop - alignToNextBlock B start + (write - stop) ∧
      write - stop + rest = alignToNextBlock B start - start ∧ alignToNextBlock B start ≤ stop := by
  have hle := le_alignToNextBlock hB start
  have hlt' := alignToNextBlock_lt hB start
  have hsize := h.size
  have hwrite := h.write_eq
  have hone := Nat.mul_le_mul_right B hblocks
  obtain ⟨hmain, -⟩ := h.noOverflow rfl
  omega

/-- The head of a bucket that has neither an excess nor the overflow block is filled. -/
theorem Extent.head_le (h : Extent B n start stop write blocks o main rest) (hblocks : 1 ≤ blocks)
    (hno : ¬ (stop < write ∧ B < stop - start)) : alignToNextBlock B start - start ≤ rest := by
  have hle := le_alignToNextBlock hB start
  have hsize := h.size
  have hwrite := h.write_eq
  have hpos := h.lazy hblocks
  have hone := Nat.mul_le_mul_right B hblocks
  omega

end

/-! ### After the head has been written -/

/-- The elements that are not in the buffers are at the front of the bucket, and at the back, and
there is room for `l₁` elements between and for `l₂` behind. -/
structure HeadFilled {V : Type} (p : Ptr Area) (start stop write : ℕ) (m : Mem Area V)
    (r : Ptr Area × Option ℕ) (front : List V) (l₁ : ℕ) (back : List V) (l₂ : ℕ) : Prop where
  dst : r.1 = p + (start + front.length)
  remaining : r.2 = some l₁ ∨ l₂ = 0 ∧ r.2.elim True (l₁ ≤ ·)
  tail : l₂ ≠ 0 → write = start + front.length + l₁ + back.length
  size : start + front.length + l₁ + back.length + l₂ = stop
  hasFront : Has m (p + start) front
  hasBack : Has m (p + (start + front.length + l₁)) back

section
variable {V : Type} {B n start stop write blocks rest : ℕ} {p : Ptr Area} {m m' : Mem Area V}
  {main front back last : List V} (hB : 1 ≤ B)
include hB

/-- Neither the overflow block nor an excess: the elements of the buffers go around the blocks. -/
theorem Extent.around (h : Extent B n start stop write blocks false main.length rest)
    (hmain : Has m (p + alignToNextBlock B start) main)
    (hno : ¬ (stop < write ∧ B < stop - start)) :
    HeadFilled p start stop write m (p + start, some (alignToNextBlock B start - start)) []
      (min (alignToNextBlock B start - start) rest) main
      (rest - (alignToNextBlock B start - start)) := by
  have hle := le_alignToNextBlock hB start
  have hsize := h.size
  have hwrite := h.write_eq
  obtain ⟨hlen, -⟩ := h.noOverflow rfl
  constructor
  · rfl
  · rcases Nat.le_total (alignToNextBlock B start - start) rest with hle' | hle'
    · exact .inl (congrArg some (Nat.min_eq_left hle').symm)
    · exact .inr ⟨Nat.sub_eq_zero_of_le hle', Nat.min_le_left _ _⟩
  · intro hne
    simp only [List.length_nil]
    omega
  · simp only [List.length_nil]
    omega
  · exact has_nil
  · cases Nat.eq_zero_or_pos blocks with
    | inl hzero =>
      rw [hzero, Nat.zero_mul] at hlen
      rw [List.length_eq_zero_iff.mp hlen]
      exact has_nil
    | inr hpos =>
      have hhead := h.head_le hB hpos hno
      rwa [List.length_nil, Nat.min_eq_left hhead, Nat.add_zero, Nat.add_sub_of_le hle]

/-- What is in the blocks of a bucket up to its end, and beyond. -/
theorem Extent.has_main (h : Extent B n start stop write blocks false main.length rest)
    (hlt : stop < write) (hblocks : 1 ≤ blocks)
    (hmain : Has m (p + alignToNextBlock B start) main) :
    Has m (p + alignToNextBlock B start) (main.take (stop - alignToNextBlock B start)) ∧
      Has m (p + stop) (main.drop (stop - alignToNextBlock B start)) := by
  obtain ⟨hlen, -, hle⟩ := h.excess hB hlt hblocks
  rwa [← List.take_append_drop (stop - alignToNextBlock B start) main, has_append,
    List.length_take_of_le (by omega), Ptr.add_assoc, Nat.add_sub_of_le hle] at hmain

theorem Extent.length_excess (h : Extent B n start stop write blocks false main.length rest)
    (hlt : stop < write) (hblocks : 1 ≤ blocks) :
    (main.drop (stop - alignToNextBlock B start)).length = write - stop := by
  obtain ⟨hlen, -, -⟩ := h.excess hB hlt hblocks
  rw [List.length_drop]
  omega

/-- The excess of the bucket is at its head. -/
theorem Extent.headFilled_excess (h : Extent B n start stop write blocks false main.length rest)
    (hlt : stop < write) (hblocks : 1 ≤ blocks)
    (hfront : Has m (p + start) (main.drop (stop - alignToNextBlock B start)))
    (hback : Has m (p + alignToNextBlock B start)
      (main.take (stop - alignToNextBlock B start))) :
    HeadFilled p start stop write m (p + (start + (write - stop)),
        some (alignToNextBlock B start - start - (write - stop)))
      (main.drop (stop - alignToNextBlock B start)) rest
      (main.take (stop - alignToNextBlock B start)) 0 := by
  have hle' := le_alignToNextBlock hB start
  obtain ⟨hlen, hroom, hle⟩ := h.excess hB hlt hblocks
  have hdrop := h.length_excess hB hlt hblocks
  have htake : (main.take (stop - alignToNextBlock B start)).length =
      stop - alignToNextBlock B start := List.length_take_of_le (by omega)
  constructor
  · rw [hdrop]
  · exact .inl (congrArg some (by omega))
  · intro hne
    exact absurd rfl hne
  · omega
  · exact hfront
  · rwa [hdrop, show start + (write - stop) + rest = alignToNextBlock B start by omega]

/-- The overflow block is at the head and behind the blocks in the array. -/
theorem Extent.headFilled_overflow
    (h : Extent B n start stop write blocks true main.length rest) (hlast : last.length = B)
    (hfront : Has m (p + start) (last.take (alignToNextBlock B start - start)))
    (hmain : Has m (p + alignToNextBlock B start) main)
    (hback : Has m (p + (write - B)) (last.drop (alignToNextBlock B start - start))) :
    HeadFilled p start stop write m
      (p + (write - B) + (B - (alignToNextBlock B start - start)), none)
      (last.take (alignToNextBlock B start - start) ++
        (main ++ last.drop (alignToNextBlock B start - start))) rest [] 0 := by
  have hle := le_alignToNextBlock hB start
  have hlt := alignToNextBlock_lt hB start
  have hsize := h.size
  have hwrite := h.write_eq
  obtain ⟨hlen, -⟩ := h.overflow rfl
  have htake : (last.take (alignToNextBlock B start - start)).length =
      alignToNextBlock B start - start := List.length_take_of_le (by omega)
  have hall : (last.take (alignToNextBlock B start - start) ++
      (main ++ last.drop (alignToNextBlock B start - start))).length = blocks * B := by
    rw [List.length_append, List.length_append, htake, List.length_drop]
    omega
  constructor
  · rw [hall, Ptr.add_assoc, Ptr.add_inj]
    omega
  · exact .inr ⟨rfl, trivial⟩
  · intro hne
    exact absurd rfl hne
  · rw [hall, List.length_nil]
    omega
  · rw [has_append, has_append, htake, Ptr.add_assoc, Ptr.add_assoc, Nat.add_sub_of_le hle,
      show alignToNextBlock B start + main.length = write - B by omega]
    exact ⟨hfront, hmain, hback⟩
  · exact has_nil

end

section
variable {V : Type} {main last front back xs : List V}

/-- Saving the excess of a bucket rearranges what is in its blocks. -/
theorem perm_excess (k : ℕ) : (main.drop k ++ main.take k).Perm main := by
  apply List.perm_append_comm.trans
  rw [List.take_append_drop]

/-- So does splitting the overflow block. -/
theorem perm_overflow (k : ℕ) : (last.take k ++ (main ++ last.drop k)).Perm (main ++ last) := by
  apply (List.perm_append_comm_assoc _ _ _).trans
  rw [List.take_append_drop]

/-- A bucket that has been filled holds what was not in the buffers, and what was. -/
theorem perm_filled (h : (front ++ back).Perm xs) (l₁ l₂ : List V) :
    (front ++ (l₁ ++ (back ++ l₂))).Perm (xs ++ (l₁ ++ l₂)) := by
  refine List.Perm.trans ?_ (h.append_right _)
  rw [List.append_assoc front back]
  exact (List.perm_append_comm_assoc l₁ back l₂).append_left front

end

/-! ### Filling the rest -/

section
variable {V : Type} {start stop write l₁ l₂ : ℕ} {p : Ptr Area} {m m' : Mem Area V}
  {r : Ptr Area × Option ℕ} {front back : List V}
  (h : HeadFilled p start stop write m r front l₁ back l₂)
include h

theorem HeadFilled.dst_subset : seg r.1 l₁ ⊆ seg (p + start) (stop - start) := by
  have hsize := h.size
  rw [h.dst]
  exact seg_subset_add (by omega) (by omega)

theorem HeadFilled.tail_subset : seg (p + write) l₂ ⊆ seg (p + start) (stop - start) := by
  have hsize := h.size
  rintro l ⟨x, hx, rfl⟩
  have htail := h.tail (by omega)
  simp only [elem_mem_seg, Ptr.add_off, Ptr.add_arr, true_and]
  omega

/-- What is written behind the back leaves what is before it. -/
theorem HeadFilled.notMem_tail {x : ℕ} (hx : x < start + front.length + l₁ + back.length) :
    .elem (p + x) ∉ seg (p + write) l₂ := by
  intro hmem
  simp only [elem_mem_seg, Ptr.add_off, Ptr.add_arr, true_and] at hmem
  have htail := h.tail (by omega)
  omega

theorem HeadFilled.disjoint {x : ℕ} (hx : x < l₁) : .elem (r.1 + x) ∉ seg (p + write) l₂ := by
  rw [h.dst, Ptr.add_assoc]
  exact h.notMem_tail (by omega)

theorem HeadFilled.front_notMem {x : ℕ} (hx : x < front.length) :
    .elem (p + start + x) ∉ seg r.1 l₁ ∪ seg (p + write) l₂ := by
  rw [Ptr.add_assoc]
  rintro (hmem | hmem)
  · rw [h.dst] at hmem
    simp only [elem_mem_seg, Ptr.add_off, Ptr.add_arr, true_and] at hmem
    omega
  · exact h.notMem_tail (by omega) hmem

theorem HeadFilled.back_notMem {x : ℕ} (hx : x < back.length) :
    .elem (p + (start + front.length + l₁) + x) ∉ seg r.1 l₁ ∪ seg (p + write) l₂ := by
  rw [Ptr.add_assoc]
  rintro (hmem | hmem)
  · rw [h.dst] at hmem
    simp only [elem_mem_seg, Ptr.add_off, Ptr.add_arr, true_and] at hmem
    omega
  · exact h.notMem_tail (by omega) hmem

/-- **The bucket is filled** when the front and the back have been left, and there is something in
the room for it. -/
theorem HeadFilled.filled {u v : List V} (hu : u.length = l₁) (hv : v.length = l₂)
    (hfront : Has m' (p + start) front) (hhead : Has m' r.1 u)
    (hback : Has m' (p + (start + front.length + l₁)) back) (htail : Has m' (p + write) v) :
    Has m' (p + start) (front ++ (u ++ (back ++ v))) := by
  subst hu hv
  rw [has_append, has_append, has_append, Ptr.add_assoc, Ptr.add_assoc, Ptr.add_assoc]
  refine ⟨hfront, h.dst ▸ hhead, hback, ?_⟩
  intro j x hj
  have hne : v.length ≠ 0 := by
    have := (List.getElem?_eq_some_iff.mp hj).1
    omega
  rw [← h.tail hne]
  exact htail j x hj

end

end Ps4o.InPlace
