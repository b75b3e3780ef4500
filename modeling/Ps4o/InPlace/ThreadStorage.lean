import Ps4o.InPlace.ParallelCleanup
import Ps4o.InPlace.Sequential
import Ps4o.Program.View

/-!
# Threads with storage of their own

The threads of the parallel in-place sort share the array; each of them has its own buffers, swap
blocks and overflow block (`LocalData` in `memory.hpp`). Thread `j` does what a single thread does,
with the buffers and blocks that are its own.

## What is proved

* `sat_localProg` — what a thread does with objects, it does in its own storage with bits.
* `mem_of_localSpaces` — threads whose parts of the array are different have nothing in common.
-/

namespace Ps4o.InPlace

open Ps4o.Program Ps4o.Storage Ps4o.Order

variable {α β : Type}

/-- How much of an array belongs to one thread; the input is common to all. -/
def localSize (kMaxBuckets kBlockSize : ℕ) : Area → ℕ
  | .input => 0
  | .buffers => kMaxBuckets * kBlockSize
  | .swap _ | .overflow => kBlockSize

/-- Where thread `j` has what a single thread has at `q`. -/
def localAt (kMaxBuckets kBlockSize j : ℕ) (q : Ptr Area) : Ptr Area :=
  ⟨q.arr, j * localSize kMaxBuckets kBlockSize q.arr + q.off⟩

section
variable {K B i j k k' n : ℕ} {p q q' : Ptr Area}

theorem localAt_add (x : ℕ) : localAt K B j (q + x) = localAt K B j q + x :=
  congrArg (Ptr.mk _) (Nat.add_assoc _ _ _).symm

theorem localAt_input (h : q.arr = .input) : localAt K B j q = q := by
  obtain ⟨a, o⟩ := q
  obtain rfl : a = .input := h
  simp [localAt, localSize]

/-- The buffers of thread `j` come after those of the threads before it. -/
theorem localAt_data (b : ℕ) : localAt K B j (Buffers.data B b) = Buffers.data B (j * K + b) := by
  simp only [localAt, localSize, Buffers.data, Nat.add_mul, Nat.mul_assoc]

theorem localAt_injective : Function.Injective (localAt K B j) := by
  rintro ⟨a, o⟩ ⟨a', o'⟩ h
  obtain ⟨rfl, hoff⟩ := Ptr.mk.inj h
  exact congrArg (Ptr.mk a) (Nat.add_left_cancel hoff)

/-- The storage of thread `j`, as that of a single thread. -/
def localView (α : Type) (K B j : ℕ) : View (copies Area α) (copies Area α) :=
  relocation (localAt K B j) localAt_injective

/-- What thread `j` does: what a single thread does, in its own storage. -/
def localProg (K B j : ℕ) (prog : Act Area α β) : Act Area α β := (localView α K B j).prog prog

/-- What thread `j` works on when it works on the `n` elements from `p` on. -/
def localSpace (K B j n : ℕ) (p : Ptr Area) : Set (Loc Area) :=
  Loc.relocate (localAt K B j) '' partitionSpace K B n p

theorem has_local {m : Mem Area α} {vs : List α} :
    Has (m.along (localAt K B j)) q vs ↔ Has m (localAt K B j q) vs :=
  has_along fun i _ => localAt_add i

theorem local_seg : Loc.relocate (localAt K B j) '' seg q n = seg (localAt K B j q) n :=
  relocate_seg fun i _ => localAt_add i

/-- **What a thread does with objects, it does in its own storage with bits**: outside of the
array its storage is raw. -/
theorem sat_localProg {init : Bool} {R : Set (Loc Area)} {prog : Act Area α β} {m : Mem Area α}
    {Q : β → Mem Area (Slot α) → Prop}
    (h : Sat (slots Area α init) R prog ((m.along (localAt K B j)).within p n) Q) :
    Sat (copies Area α) (Loc.relocate (localAt K B j) '' R) (localProg K B j prog) m
      fun b m' => ∃ m₁, Q b m₁ ∧ Rep m₁ (m'.along (localAt K B j)) :=
  (localView α K B j).sat (sat_copies h rep_within)

/-- What thread `j` works on is in its part of the input, or its own. -/
theorem mem_localSpace (hq : q.arr = .input) {l : Loc Area} (hl : l ∈ localSpace K B j k q) :
    l ∈ seg q k ∨ ∃ a, ∃ x < localSize K B a, l = .elem ⟨a, j * localSize K B a + x⟩ := by
  have hown : ∀ r : Ptr Area, r.off = 0 → ∀ x < localSize K B r.arr, ∃ a, ∃ x' < localSize K B a,
      Loc.relocate (localAt K B j) (.elem (r + x)) = .elem ⟨a, j * localSize K B a + x'⟩ :=
    fun r hr x hx => ⟨r.arr, x, hx, by simp [Loc.relocate, localAt, hr]⟩
  obtain ⟨l, ((hmem | hmem | hmem) | hmem) | hmem, rfl⟩ := hl
  · refine .inl ?_
    have himage : Loc.relocate (localAt K B j) l ∈ Loc.relocate (localAt K B j) '' seg q k :=
      ⟨l, hmem, rfl⟩
    rwa [local_seg, localAt_input hq] at himage
  all_goals obtain ⟨x, hx, rfl⟩ := hmem
  · exact .inr (hown (swapBlockAt false) rfl x hx)
  · exact .inr (hown (swapBlockAt true) rfl x hx)
  · exact .inr (hown overflowBlock rfl x hx)
  · exact .inr (hown ⟨.buffers, 0⟩ rfl x hx)

/-- **What two threads both work on** is in their parts of the input. -/
theorem mem_of_localSpaces (hij : i ≠ j) (hq : q.arr = .input) (hq' : q'.arr = .input)
    {l : Loc Area} (hl : l ∈ localSpace K B i k q) (hl' : l ∈ localSpace K B j k' q') :
    l ∈ seg q k ∧ l ∈ seg q' k' := by
  rcases mem_localSpace hq hl with hseg | ⟨a, x, hx, rfl⟩
  · rcases mem_localSpace hq' hl' with hseg' | ⟨a, x, hx, rfl⟩
    · exact ⟨hseg, hseg'⟩
    · -- no part of the input belongs to a thread
      obtain ⟨harr, -⟩ := elem_mem_seg.mp hseg
      obtain rfl : a = .input := harr.trans hq
      exact absurd hx (Nat.not_lt_zero x)
  · rcases mem_localSpace hq' hl' with hseg' | ⟨a', x', hx', he⟩
    · obtain ⟨harr, -⟩ := elem_mem_seg.mp hseg'
      obtain rfl : a = .input := harr.trans hq'
      exact absurd hx (Nat.not_lt_zero x)
    · obtain ⟨rfl, hoff⟩ := Ptr.mk.inj (Loc.elem.inj he)
      exact absurd (add_mul_inj hx hx' hoff).1 hij

theorem relocate_subset_localSpace {R : Set (Loc Area)} (h : R ⊆ partitionSpace K B n p) :
    Loc.relocate (localAt K B j) '' R ⊆ localSpace K B j n p := Set.image_mono h

end

/-! ### A thread that has not begun -/

/-- No splitters, empty buffers, and bucket sizes that are zero. -/
structure LocalData.Blank (cfg : Config) (B : ℕ) (d : LocalData α) : Prop where
  classifier : d.classifier.Empty
  ptr : ∀ b < cfg.kMaxBuckets, d.buffers.ptr b = b * B
  stop : ∀ b < cfg.kMaxBuckets, d.buffers.stop b = b * B + B
  zero : ∀ b < cfg.kMaxBuckets, d.bucketSize b = 0

section
variable {cfg : Config} {init : Bool} {B n : ℕ} {p : Ptr Area} {s : Sorter α} {d : LocalData α}

theorem Sorter.Fresh.blank {m : Mem Area (Slot α)} (h : s.Fresh cfg init B m) :
    s.data.Blank cfg B where
  classifier := h.classifier
  ptr b hb := (h.buffers b hb).ptr
  stop b hb := (h.buffers b hb).stop
  zero := h.zero

/-- With bits, its buffers are empty in any memory. -/
theorem LocalData.Blank.holds (h : d.Blank cfg B) (hp : p.arr = .input) (m : Mem Area α) {b : ℕ}
    (hb : b < cfg.kMaxBuckets) : d.buffers.Holds init B (m.within p n) b ([] : List α) :=
  ⟨h.ptr b hb, h.stop b hb, Nat.zero_le B, has_nil,
    fun _ => raw_within (by simp [Buffers.data, hp]) _⟩

theorem LocalData.Blank.fresh (h : s.data.Blank cfg B) (hp : p.arr = .input) (m : Mem Area α) :
    s.Fresh cfg init B (m.within p n) where
  classifier := h.classifier
  buffers _ hb := h.holds hp m hb
  zero := h.zero
  idle c _ := raw_within (by simp [swapBlockAt, hp]) _
  overflow _ := raw_within (by simp [overflowBlock, hp]) _

end

end Ps4o.InPlace
