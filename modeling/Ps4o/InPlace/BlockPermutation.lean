import Mathlib.Algebra.BigOperators.Group.Finset.Basic
import Mathlib.Data.Fintype.Card
import Ps4o.InPlace.Blocks
import Ps4o.PostProcessing

/-!
# Block permutation

After classification, the array of the in-place algorithm consists of full blocks of elements of one
bucket each, and of empty blocks; in every bucket, full blocks precede empty ones. The threads then
bring every block to its bucket (`permuteBlocks` in `block_permutation.hpp`). Each bucket has a read
and a write pointer (`bucket_pointers.hpp`): a thread takes blocks from where the read pointer is,
which moves down, and puts blocks where the write pointer is, which moves up.

## The model

`step` is one atomic step of one thread: a change of the pointers of a bucket, a look at its read
counter, or reading, writing or classifying a block. The threads take their steps in any order. A
block is moved as a whole: its slot is empty afterwards. Slots and pointers are offsets in the
array, as in the code.

## What is proved

In `Ps4o.InPlace.BlockInvariant`, about what is defined here:

* `permuteBlocks_conserves` — in every state that the threads can come to, every block is in one
  place (`InOnePlace`), in the slot in which it was at first or in a slot of its bucket that has
  been written (`InSlot`), and no slot is written before its block has been read (`NotOverwritten`);
  when all threads have finished, every block is in its bucket or in the one overflow block
  (`AllPlaced`).
-/

namespace Ps4o.InPlace

/-! ### The pointers of a bucket -/

/-- `BucketPointers`: the two pointers, which change together, and the number of threads that are
reading. -/
structure BucketPointers where
  /-- The write pointer. -/
  w : ℤ
  /-- The read pointer. -/
  r : ℤ
  /-- `num_reading_`. -/
  numReading : ℤ
  deriving DecidableEq

namespace BucketPointers

/-- `set`. -/
def set (w r : ℤ) : BucketPointers := ⟨w, r, 0⟩

/-- What `decRead` returns of the read pointer: its low bits are cleared. -/
def read (kBlockSize : ℕ) (bp : BucketPointers) : ℤ := bp.r / kBlockSize * kBlockSize

/-- What `incWrite` leaves behind. -/
def incWrite (kBlockSize : ℕ) (bp : BucketPointers) : BucketPointers :=
  { bp with w := bp.w + kBlockSize }

/-- What the first of the two changes that `decRead` makes leaves behind. -/
def startRead (bp : BucketPointers) : BucketPointers := { bp with numReading := bp.numReading + 1 }

/-- What the second one leaves behind. -/
def decRead (kBlockSize : ℕ) (bp : BucketPointers) : BucketPointers :=
  { bp with r := bp.r - kBlockSize }

/-- `stopRead`. -/
def stopRead (bp : BucketPointers) : BucketPointers := { bp with numReading := bp.numReading - 1 }

/-- `isReading`. -/
def isReading (bp : BucketPointers) : Bool := bp.numReading ≠ 0

end BucketPointers

/-! ### The code -/

/-- Where a thread is in `permuteBlocks`; `dest`, `current`, `write` and `new` are `dest_bucket`,
`current_swap`, `write` and `new_dest_bucket` in `swapBlock`. -/
inductive Pc where
  /-- Before `decRead` in `classifyAndReadBlock`. -/
  | tryRead
  /-- In `decRead`, the thread has been counted. -/
  | decRead
  /-- There are no more blocks in the bucket. -/
  | noBlock
  /-- Before a block is read. -/
  | readBlock (read : ℤ)
  /-- The block has been read. -/
  | stopRead
  /-- Before `incWrite`. -/
  | incWrite (dest : ℕ) (current : Bool)
  /-- While somebody may be reading the block. -/
  | isReading (dest : ℕ) (current : Bool) (write : ℤ)
  /-- Before the block is written. -/
  | writeBlock (dest : ℕ) (current : Bool) (write : ℤ)
  /-- Before the block is written to the overflow block. -/
  | writeOverflow (dest : ℕ) (current : Bool) (write : ℤ)
  /-- Before the block at the write pointer is classified. -/
  | classify (dest : ℕ) (current : Bool) (write : ℤ)
  /-- Before this block is read. -/
  | swapOut (dest : ℕ) (current : Bool) (write : ℤ) (new : ℕ)
  /-- Before the block is written in its place. -/
  | swapIn (dest : ℕ) (current : Bool) (write : ℤ) (new : ℕ)
  /-- After the loop. -/
  | finished
  deriving DecidableEq

/-- The data of one thread. -/
structure Thread (β : Type) where
  /-- Where it is. -/
  pc : Pc
  /-- `count`, the buckets still to go through. -/
  count : ℕ
  /-- `read_bucket`. -/
  readBucket : ℕ
  /-- `local_.swap`. -/
  swap : Bool → Option β
  /-- `local_.overflow`. -/
  overflow : Option β

/-- The array, the pointers of the buckets, and the data of `t` threads. -/
structure Permuting (t : ℕ) (β : Type) where
  /-- The block at an offset. -/
  slot : ℤ → Option β
  /-- `bucket_pointers_`. -/
  pointers : ℕ → BucketPointers
  /-- What each thread has. -/
  threads : Fin t → Thread β

/-- The head of the loop over all buckets. -/
def loop (count : ℕ) : Pc := if count = 0 then .finished else .tryRead

/-- The first bucket that a thread reads from. -/
def startBucket (nb t i : ℕ) : ℕ := i * nb / t % nb

/-- What a thread begins with. -/
def Thread.start {β : Type} (nb t i : ℕ) : Thread β :=
  ⟨loop nb, nb, startBucket nb t i, fun _ => none, none⟩

/-- `max_off`: where no block is written to, as it would not fit. -/
def maxOff (kBlockSize n : ℕ) : ℤ := (alignToNextBlock kBlockSize (n + 1) : ℤ) - kBlockSize

/-- The pointers of bucket `b`, and what thread `i` has, are replaced. -/
def Permuting.set {t : ℕ} {β : Type} (s : Permuting t β) (b : ℕ) (bp : BucketPointers) (i : Fin t)
    (th : Thread β) : Permuting t β :=
  { s with pointers := Function.update s.pointers b bp, threads := Function.update s.threads i th }

/-- The block at offset `p`, and what thread `i` has, are replaced. -/
def Permuting.write {t : ℕ} {β : Type} (s : Permuting t β) (p : ℤ) (x : Option β) (i : Fin t)
    (th : Thread β) : Permuting t β :=
  { s with slot := Function.update s.slot p x, threads := Function.update s.threads i th }

/-- What thread `i` has is replaced. -/
def Permuting.continue {t : ℕ} {β : Type} (s : Permuting t β) (i : Fin t) (th : Thread β) :
    Permuting t β :=
  { s with threads := Function.update s.threads i th }

/-- One step of thread `i`, when there are `nb` buckets and `n` elements. -/
def step {t : ℕ} {β : Type} (kBlockSize n nb : ℕ) (classify : Option β → ℕ) (i : Fin t)
    (s : Permuting t β) : Permuting t β :=
  let th := s.threads i
  match th.pc with
  | .tryRead =>
    s.set th.readBucket (s.pointers th.readBucket).startRead i { th with pc := .decRead }
  | .decRead =>
    let bp := s.pointers th.readBucket
    s.set th.readBucket (bp.decRead kBlockSize) i
      { th with
        pc := if bp.read kBlockSize < bp.w then .noBlock else .readBlock (bp.read kBlockSize) }
  | .noBlock =>
    s.set th.readBucket (s.pointers th.readBucket).stopRead i
      { th with
        pc := loop (th.count - 1)
        count := th.count - 1
        readBucket := (th.readBucket + 1) % nb }
  | .readBlock read =>
    s.write read none i
      { th with pc := .stopRead, swap := Function.update th.swap false (s.slot read) }
  | .stopRead =>
    s.set th.readBucket (s.pointers th.readBucket).stopRead i
      { th with pc := .incWrite (classify (th.swap false)) false }
  | .incWrite dest current =>
    let bp := s.pointers dest
    s.set dest (bp.incWrite kBlockSize) i
      { th with pc :=
          if bp.r < bp.w then
            if maxOff kBlockSize n ≤ bp.w then .writeOverflow dest current bp.w
              else .isReading dest current bp.w
          else .classify dest current bp.w }
  | .isReading dest current write =>
    if (s.pointers dest).isReading then s
      else s.continue i { th with pc := .writeBlock dest current write }
  | .writeBlock _ current write =>
    s.write write (th.swap current) i
      { th with pc := .tryRead, swap := Function.update th.swap current none }
  | .writeOverflow _ current _ =>
    s.continue i
      { th with
        pc := .tryRead
        swap := Function.update th.swap current none
        overflow := th.swap current }
  | .classify dest current write =>
    let new := classify (s.slot write)
    s.continue i
      { th with
        pc := if new = dest then .incWrite dest current else .swapOut dest current write new }
  | .swapOut dest current write new =>
    s.write write none i
      { th with
        pc := .swapIn dest current write new
        swap := Function.update th.swap (!current) (s.slot write) }
  | .swapIn _ current write new =>
    s.write write (th.swap current) i
      { th with pc := .incWrite new !current, swap := Function.update th.swap current none }
  | .finished => s

/-- What the threads can come to. -/
inductive Reachable {t : ℕ} {β : Type} (kBlockSize n nb : ℕ) (classify : Option β → ℕ)
    (s₀ : Permuting t β) : Permuting t β → Prop where
  /-- Nobody has taken a step. -/
  | start : Reachable kBlockSize n nb classify s₀ s₀
  /-- Thread `i` takes a step. -/
  | step {s : Permuting t β} (i : Fin t) (h : Reachable kBlockSize n nb classify s₀ s) :
      Reachable kBlockSize n nb classify s₀ (step kBlockSize n nb classify i s)

/-! ### What it is for -/

/-- Where the blocks of bucket `b` begin. -/
def startBlock (kBlockSize : ℕ) (bss : ℕ → ℕ) (b : ℕ) : ℤ := alignToNextBlock kBlockSize (bss b)

/-- The array has been classified: in every bucket, `full b` full blocks precede empty ones, and the
pointers are set accordingly. The bucket boundaries have room for all blocks, and all full blocks
lie within the array. -/
structure Classified (kBlockSize n nb : ℕ) {t : ℕ} {β : Type} [Fintype β] (bss full : ℕ → ℕ)
    (classify : Option β → ℕ) (s : Permuting t β) : Prop where
  pointers : ∀ b < nb, s.pointers b =
    .set (startBlock kBlockSize bss b)
    (startBlock kBlockSize bss b + full b * kBlockSize - kBlockSize)
  inBucket : ∀ b < nb, startBlock kBlockSize bss b + full b * kBlockSize ≤
    startBlock kBlockSize bss (b + 1)
  inArray : ∀ b < nb, 1 ≤ full b → startBlock kBlockSize bss b + full b * kBlockSize ≤ n
  slot : ∀ p, (s.slot p).isSome ↔ ∃ b < nb, ∃ k < full b, p =
    startBlock kBlockSize bss b + (k : ℕ) * kBlockSize
  /-- Every block is somewhere, and no two slots hold the same block. -/
  blocks : ∀ x, ∃! p, s.slot p = some x
  bucket : ∀ x, classify (some x) < nb
  room : ∀ b < nb, (Finset.univ.filter fun x => classify (some x) = b).card *
    kBlockSize ≤ bss (b + 1) - bss b
  threads : ∀ i, s.threads i = .start nb t i

/-- Where a block can be. -/
inductive Place (t : ℕ) where
  /-- In the array. -/
  | slot (p : ℤ)
  /-- In a swap block of a thread. -/
  | swap (i : Fin t) (c : Bool)
  /-- In the overflow block of a thread. -/
  | overflow (i : Fin t)
  deriving DecidableEq

/-- What is in a place. -/
def Permuting.content {t : ℕ} {β : Type} (s : Permuting t β) : Place t → Option β
  | .slot p => s.slot p
  | .swap i c => (s.threads i).swap c
  | .overflow i => (s.threads i).overflow

section
variable {t : ℕ} {β : Type} (kBlockSize n nb : ℕ) (bss : ℕ → ℕ) (classify : Option β → ℕ)
  (s₀ s : Permuting t β)

/-- The block is in exactly one place. -/
def InOnePlace (x : β) : Prop := ∃! l, s.content l = some x

/-- The slot is one of those of the bucket of the block that have been written. -/
def Placed (x : β) (p : ℤ) : Prop :=
  startBlock kBlockSize bss (classify (some x)) ≤ p ∧ p < (s.pointers (classify (some x))).w ∧
  s.slot p = some x

/-- A block in the array has not been read, or it has been written to its bucket. -/
def InSlot (x : β) : Prop :=
  ∀ p, s.slot p = some x → s₀.slot p = some x ∨ Placed kBlockSize bss classify s x p

/-- The block in a slot stays there in every step, but in one in which a thread reads it, and which
leaves the slot empty. -/
def NotOverwritten : Prop :=
  ∀ i p x, s.slot p = some x → (step kBlockSize n nb classify i s).slot p = some x ∨
    (step kBlockSize n nb classify i s).slot p = none ∧
      ∃ c, ((step kBlockSize n nb classify i s).threads i).swap c = some x

/-- Every block is in its bucket, or in the overflow block of a thread, of which there is one at
most. -/
def AllPlaced : Prop :=
  (∀ x, (∃ p, Placed kBlockSize bss classify s x p) ∨ ∃ i, (s.threads i).overflow = some x) ∧
    ∀ i j x y, (s.threads i).overflow = some x → (s.threads j).overflow = some y → i = j

end

end Ps4o.InPlace
