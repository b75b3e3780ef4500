import Ps4o.InPlace.Blocks
import Ps4o.Program.Segment

/-!
# Buffers and blocks of the in-place algorithm

Elements leave the array for the buffers of their buckets, a block at a time come back, and are
moved around in swap blocks (`buffers.hpp`).

## The model

The array, the buffers of a thread, its two swap blocks and its overflow block are arrays of slots.
For types that need no constructor, the storage of buffers and blocks is initialized
(`kInitializedStorage`) and elements are assigned to it; for others, they are constructed in it and
destroyed. Destroying an element whose type has no destructor has no effect.

## What is proved

* `sat_moves` — moving a range, however the elements are put where they go.
* `Block.sat_readFrom`, `Block.sat_writeTo`, `Block.sat_writeToBlock` — a block is moved as a whole.
* `Buffers.sat_push`, `Buffers.sat_writeTo`, `Buffers.sat_reset` — what a buffer holds.
-/

namespace Ps4o.InPlace

open Ps4o.Program Ps4o.Storage

variable {α : Type}

/-! ### The code -/

/-- The arrays. -/
inductive Area where
  /-- The range is in it. -/
  | input
  /-- The buffers. -/
  | buffers
  /-- A swap block. -/
  | swap (c : Bool)
  /-- The overflow block. -/
  | overflow
  deriving DecidableEq

/-- Puts an element into the storage of a buffer or a block. -/
def put (kInitializedStorage : Bool) (p : Ptr Area) (v : α) : Act Area α Unit :=
  if kInitializedStorage then assignTo p v else constructAt p v

/-- Destroys `n` elements of a buffer or a block. -/
def destroyRange (kInitializedStorage : Bool) (p : Ptr Area) (n : ℕ) : Act Area α Unit :=
  if kInitializedStorage then pure () else Prog.loop (fun i _ => destroyAt (p + i)) n ()

/-- `std::move(src, src + n, dst)`. -/
def moveRange (src dst : Ptr Area) (n : ℕ) : Act Area α Unit :=
  Prog.loop (fun i _ => do
    let v ← moveFrom (src + i)
    assignTo (dst + i) v) n ()

namespace Block

/-- Reads `n` elements from `src` on. -/
def readFrom (kInitializedStorage : Bool) (block src : Ptr Area) (n : ℕ) : Act Area α Unit :=
  Prog.loop (fun i _ => do
    let v ← moveFrom (src + i)
    put kInitializedStorage (block + i) v) n ()

/-- Resets a partial block. -/
def reset (kInitializedStorage : Bool) (block : Ptr Area) (n : ℕ) : Act Area α Unit :=
  destroyRange kInitializedStorage block n

/-- Writes a full block to another block. -/
def writeToBlock (kInitializedStorage : Bool) (kBlockSize : ℕ) (block other : Ptr Area) :
    Act Area α Unit := do
  Prog.loop (fun i _ => do
    let v ← moveFrom (block + i)
    put kInitializedStorage (other + i) v) kBlockSize ()
  destroyRange kInitializedStorage block kBlockSize

/-- Writes a full block to the array. -/
def writeTo (kInitializedStorage : Bool) (kBlockSize : ℕ) (block dest : Ptr Area) :
    Act Area α Unit := do
  moveRange block dest kBlockSize
  destroyRange kInitializedStorage block kBlockSize

end Block

/-- The buffers: for each bucket, where the next element goes, and where its buffer ends. -/
structure Buffers where
  /-- `ptr`. -/
  ptr : ℕ → ℕ
  /-- `end`. -/
  stop : ℕ → ℕ

namespace Buffers

variable (kInitializedStorage : Bool) (kBlockSize : ℕ)

/-- The data of a buffer. -/
def data (i : ℕ) : Ptr Area := ⟨.buffers, i * kBlockSize⟩

/-- `resetBuffer`. -/
def resetBuffer (b : Buffers) (i : ℕ) : Buffers :=
  { b with ptr := Function.update b.ptr i (i * kBlockSize) }

/-- What the constructor leaves. -/
def start : Buffers := ⟨fun i => i * kBlockSize, fun i => i * kBlockSize + kBlockSize⟩

/-- Checks if a buffer is full. -/
def isFull (b : Buffers) (i : ℕ) : Bool := b.ptr i = b.stop i

/-- Number of elements in a buffer. -/
def size (b : Buffers) (i : ℕ) : ℕ := kBlockSize - (b.stop i - b.ptr i)

/-- Resets a buffer. -/
def reset (b : Buffers) (i : ℕ) : Act Area α Buffers := do
  destroyRange kInitializedStorage (data kBlockSize i) (b.size kBlockSize i)
  pure (b.resetBuffer kBlockSize i)

/-- Pushes a new element to a buffer. -/
def push (b : Buffers) (i : ℕ) (v : α) : Act Area α Buffers := do
  put kInitializedStorage ⟨.buffers, b.ptr i⟩ v
  pure { b with ptr := Function.update b.ptr i (b.ptr i + 1) }

/-- Flushes a buffer to the array. -/
def writeTo (b : Buffers) (i : ℕ) (dest : Ptr Area) : Act Area α Buffers := do
  let b := b.resetBuffer kBlockSize i
  moveRange ⟨.buffers, b.ptr i⟩ dest kBlockSize
  destroyRange kInitializedStorage ⟨.buffers, b.ptr i⟩ (b.stop i - b.ptr i)
  pure b

end Buffers

/-! ### Moving a range -/

/-- Storage that elements can be put into. -/
def Ready (kInitializedStorage : Bool) (m : Mem Area (Slot α)) (p : Ptr Area) (n : ℕ) : Prop :=
  kInitializedStorage = false → Raw m p n

/-- There are objects, perhaps moved from. -/
def Live (m : Mem Area (Slot α)) (p : Ptr Area) (n : ℕ) : Prop := ∀ i < n, m.slot (p + i) ≠ .raw

/-- Outside of these segments, the slots are as they were. -/
def Frame (m m' : Mem Area (Slot α)) (R : Set (Loc Area)) : Prop :=
  ∀ q, .elem q ∉ R → m'.slot q = m.slot q

section
variable {init : Bool} {R : Set (Loc Area)} {m m' m'' : Mem Area (Slot α)} {p q src dst : Ptr Area}
  {n k : ℕ} {vs : List α}

theorem seg_mono (h : k ≤ n) : seg p k ⊆ seg p n := fun _ ⟨i, hi, he⟩ => ⟨i, hi.trans_le h, he⟩

theorem Frame.refl (m : Mem Area (Slot α)) (R : Set (Loc Area)) : Frame m m R := fun _ _ => rfl

theorem Frame.trans (h : Frame m m' R) (h' : Frame m' m'' R) : Frame m m'' R :=
  fun q hq => (h' q hq).trans (h q hq)

theorem Frame.mono {R' : Set (Loc Area)} (h : Frame m m' R) (hR : R ⊆ R') : Frame m m' R' :=
  fun q hq => h q fun hq' => hq (hR hq')

theorem Frame.set (h : Frame m m' R) {v : Slot α} (hp : .elem p ∈ R) : Frame m (m'.set p v) R := by
  intro q hq
  have hne : q ≠ p := by
    rintro rfl
    exact hq hp
  rw [Mem.set_slot, Function.update_of_ne hne]
  exact h q hq

theorem Frame.has (h : Frame m m' R) (hm : Has m p (vs.map .full))
    (hd : ∀ i < vs.length, .elem (p + i) ∉ R) : Has m' p (vs.map .full) :=
  hm.of_eq fun i hi => (h _ (hd i (by simpa using hi))).symm

theorem Frame.live (h : Frame m m' R) (hm : Live m p n) (hd : ∀ i < n, .elem (p + i) ∉ R) :
    Live m' p n := by
  intro i hi
  rw [h _ (hd i hi)]
  exact hm i hi

theorem Frame.ready (h : Frame m m' R) (hm : Ready init m p n) (hd : ∀ i < n, .elem (p + i) ∉ R) :
    Ready init m' p n := by
  intro hinit i hi
  rw [h _ (hd i hi)]
  exact hm hinit i hi

/-- An object that has been moved from is still there. -/
theorem live_of_forall_moved {n : ℕ} (h : ∀ i < n, m.slot (p + i) = .moved) : Live m p n :=
  fun i hi => by simp [h i hi]

theorem live_of_has (h : Has m p (vs.map .full)) : Live m p vs.length := by
  intro i hi
  rw [h i (.full vs[i]) (by simp [hi])]
  simp

theorem sat_frame {β : Type} {prog : Act Area α β} {Q : β → Mem Area (Slot α) → Prop}
    (h : Sat (slots Area α init) R prog m Q) :
    Sat (slots Area α init) R prog m fun b m' => Q b m' ∧ Frame m m' R :=
  h.frame.imp fun _ _ h => ⟨h.1, fun q hq => (h.2 (.elem q) hq).symm⟩

theorem sat_put {v : α} {Q : Unit → Mem Area (Slot α) → Prop} (hR : .elem p ∈ R)
    (hp : init = false → m.slot p = .raw) (hQ : Q () (m.set p (.full v))) :
    Sat (slots Area α init) R (put init p v) m Q := by
  cases init with
  | false => exact sat_constructAt hR (hp rfl) hQ
  | true => exact sat_assignTo hR (fun _ => rfl) hQ

/-- **Moving a range**, however the elements are put where they go. -/
theorem sat_moves {w : Ptr Area → α → Act Area α Unit} (hsrc : Has m src (vs.map .full))
    (hne : ∀ i < vs.length, ∀ j < vs.length, src + i ≠ dst + j)
    (hw : ∀ i < vs.length, ∀ v m' Q, m'.slot (dst + i) = m.slot (dst + i) →
      Q () (m'.set (dst + i) (.full v)) →
      Sat (slots Area α init) (seg src vs.length ∪ seg dst vs.length) (w (dst + i) v) m' Q) :
    Sat (slots Area α init) (seg src vs.length ∪ seg dst vs.length)
      (Prog.loop (fun i _ => do
        let v ← moveFrom (src + i)
        w (dst + i) v) vs.length ()) m fun _ m' =>
      Has m' dst (vs.map .full) ∧ (∀ i < vs.length, m'.slot (src + i) = .moved) ∧
        Frame m m' (seg src vs.length ∪ seg dst vs.length) := by
  refine (sat_frame (sat_loop (fun j _ (m' : Mem Area (Slot α)) =>
      (∀ (i : ℕ) (v : α), vs[i]? = some v → m'.slot (src + i) = if i < j then .moved else .full v) ∧
      (∀ (i : ℕ) (v : α), vs[i]? = some v → m'.slot (dst + i) = if i < j then .full v
        else m.slot (dst + i)))
    ⟨fun i v hv => ?_, fun i v hv => ?_⟩ fun j hj _ m' hI => ?_)).imp fun _ m' hI =>
      ⟨fun i v hv => ?_, fun i hi => ?_, hI.2⟩
  · rw [if_neg (Nat.not_lt_zero i)]
    exact hsrc i _ (by simp [hv])
  · rw [if_neg (Nat.not_lt_zero i)]
  · obtain ⟨hs, hd⟩ := hI
    have hvj : vs[j]? = some vs[j] := by simp [hj]
    have hfull := hs j _ hvj
    rw [if_neg (lt_irrefl j)] at hfull
    rw [sat_bind]
    refine sat_moveFrom (.inl (elem_add_mem_seg.mpr hj)) hfull
      (hw j hj _ _ _ ?_ ⟨fun i v hv => ?_, fun i v hv => ?_⟩)
    · rw [Mem.set_slot, Function.update_of_ne (hne j hj j hj).symm,
        hd j _ hvj, if_neg (lt_irrefl j)]
    · have hi := (List.getElem?_eq_some_iff.mp hv).1
      rw [Mem.set_slot, Function.update_of_ne (hne i hi j hj), Mem.set_slot,
        Function.update_apply, hs i v hv]
      simp only [Ptr.add_inj]
      split_ifs <;> first | rfl | omega
    · have hi := (List.getElem?_eq_some_iff.mp hv).1
      rcases eq_or_ne i j with rfl | hij
      · rw [Mem.set_slot, Function.update_self, if_pos (Nat.lt_succ_self i),
          Option.some.inj (hvj.symm.trans hv)]
      · rw [Mem.set_slot, Function.update_of_ne (by simpa using hij), Mem.set_slot,
          Function.update_of_ne (hne j hj i hi).symm, hd i v hv]
        split_ifs <;> first | rfl | omega
  · simp only [List.getElem?_map, Option.map_eq_some_iff] at hv
    obtain ⟨a, ha, rfl⟩ := hv
    rw [hI.1.2 i a ha, if_pos (List.getElem?_eq_some_iff.mp ha).1]
  · rw [hI.1.1 i vs[i] (by simp [hi]), if_pos hi]

/-- `std::move` to slots that hold objects. -/
theorem sat_moveRange (hn : vs.length = n) (hsrc : Has m src (vs.map .full)) (hdst : Live m dst n)
    (hne : ∀ i < n, ∀ j < n, src + i ≠ dst + j) :
    Sat (slots Area α init) (seg src n ∪ seg dst n) (moveRange src dst n) m fun _ m' =>
      Has m' dst (vs.map .full) ∧ (∀ i < n, m'.slot (src + i) = .moved) ∧
      Frame m m' (seg src n ∪ seg dst n) := by
  subst hn
  exact sat_moves hsrc hne fun i hi _ _ _ heq hQ =>
    sat_assignTo (.inr (elem_add_mem_seg.mpr hi)) (fun hraw => absurd (heq ▸ hraw) (hdst i hi)) hQ

/-- Destroying objects leaves storage that elements can be put into. -/
theorem sat_destroyRange (h : Live m p n) :
    Sat (slots Area α init) (seg p n) (destroyRange init p n) m fun _ m' => Ready init m' p n ∧
    Frame m m' (seg p n) := by
  cases init with
  | true => exact ⟨nofun, .refl m _⟩
  | false =>
    refine (sat_frame (sat_loop (fun j _ (m' : Mem Area (Slot α)) =>
      ∀ i < n, m'.slot (p + i) = if i < j then .raw else m.slot (p + i)) (fun i _ => by simp)
        fun j hj _ m' hI => ?_)).imp
      fun _ m' hI => ⟨fun _ i hi => by rw [hI.1 i hi, if_pos hi], hI.2⟩
    refine sat_destroyAt (elem_add_mem_seg.mpr hj) ?_ fun i hi => ?_
    · rw [hI j hj, if_neg (lt_irrefl j)]
      exact h j hj
    · rw [Mem.set_slot, Function.update_apply, hI i hi]
      simp only [Ptr.add_inj]
      split_ifs <;> first | rfl | omega

theorem elem_add_ne {i j : ℕ} (h : p.arr ≠ q.arr) : p + i ≠ q + j :=
  fun he => h (by simpa using congrArg Ptr.arr he)

theorem notMem_seg_of_arr {i : ℕ} (h : p.arr ≠ q.arr) : .elem (p + i) ∉ seg q n := by
  rintro ⟨j, -, he⟩
  exact elem_add_ne h (Loc.elem.inj he)

/-! ### Blocks -/

/-- **Reading into a block.** -/
theorem Block.sat_readFrom {block : Ptr Area} (hn : vs.length = n) (hsrc : Has m src (vs.map .full))
    (hblock : Ready init m block n) (hne : src.arr ≠ block.arr) :
    Sat (slots Area α init) (seg src n ∪ seg block n) (Block.readFrom init block src n) m
      fun _ m' =>
      Has m' block (vs.map .full) ∧ (∀ i < n, m'.slot (src + i) = .moved) ∧
      Frame m m' (seg src n ∪ seg block n) := by
  subst hn
  refine sat_moves hsrc (fun i _ j _ => elem_add_ne hne) fun i hi _ _ _ heq hQ => ?_
  exact sat_put (.inr (elem_add_mem_seg.mpr hi)) (fun hinit => heq.trans (hblock hinit i hi)) hQ

/-- What has been moved elsewhere is destroyed. -/
theorem sat_moved_destroyRange {block other : Ptr Area} {prog : Act Area α Unit}
    (hne : block.arr ≠ other.arr)
    (h : Sat (slots Area α init) (seg block n ∪ seg other n) prog m fun _ m' =>
      Has m' other (vs.map .full) ∧ (∀ i < n, m'.slot (block + i) = .moved) ∧
        Frame m m' (seg block n ∪ seg other n)) :
    Sat (slots Area α init) (seg block n ∪ seg other n) (do prog; destroyRange init block n) m
      fun _ m' =>
      Has m' other (vs.map .full) ∧ Ready init m' block n ∧
      Frame m m' (seg block n ∪ seg other n) := by
  rw [sat_bind]
  refine h.imp fun _ m' hm => ?_
  obtain ⟨hdst, hmoved, hframe⟩ := hm
  refine (sat_destroyRange fun i hi => by simp [hmoved i hi]).mono Set.subset_union_left
    fun _ m'' hm' => ?_
  refine ⟨hm'.2.has hdst fun i _ => notMem_seg_of_arr hne.symm, hm'.1, ?_⟩
  exact hframe.trans (hm'.2.mono Set.subset_union_left)

/-- **Writing a full block to another block.** -/
theorem Block.sat_writeToBlock {block other : Ptr Area} (hn : vs.length = n)
    (hblock : Has m block (vs.map .full)) (hother : Ready init m other n)
    (hne : block.arr ≠ other.arr) :
    Sat (slots Area α init) (seg block n ∪ seg other n) (Block.writeToBlock init n block other) m
      fun _ m' =>
      Has m' other (vs.map .full) ∧ Ready init m' block n ∧
      Frame m m' (seg block n ∪ seg other n) :=
  sat_moved_destroyRange hne (Block.sat_readFrom hn hblock hother hne)

/-- **Writing a full block to the array.** -/
theorem Block.sat_writeTo {block dest : Ptr Area} (hn : vs.length = n)
    (hblock : Has m block (vs.map .full)) (hdest : Live m dest n) (hne : block.arr ≠ dest.arr) :
    Sat (slots Area α init) (seg block n ∪ seg dest n) (Block.writeTo init n block dest) m
      fun _ m' =>
      Has m' dest (vs.map .full) ∧ Ready init m' block n ∧
      Frame m m' (seg block n ∪ seg dest n) := by
  exact sat_moved_destroyRange hne (sat_moveRange hn hblock hdest fun i _ j _ => elem_add_ne hne)

end

/-! ### Buffers -/

namespace Buffers

/-- Buffer `i` holds `vs`. -/
structure Holds (init : Bool) (B : ℕ) (b : Buffers) (m : Mem Area (Slot α)) (i : ℕ) (vs : List α) :
    Prop where
  ptr : b.ptr i = i * B + vs.length
  stop : b.stop i = i * B + B
  le : vs.length ≤ B
  has : Has m (data B i) (vs.map .full)
  ready : Ready init m (data B i + vs.length) (B - vs.length)

section
variable {init : Bool} {B : ℕ} {b : Buffers} {m m' : Mem Area (Slot α)} {i k : ℕ} {vs : List α}
  {R : Set (Loc Area)}

theorem Holds.isFull (h : b.Holds init B m i vs) : b.isFull i = decide (vs.length = B) := by
  rw [Buffers.isFull, h.ptr, h.stop]
  simp

theorem Holds.size (h : b.Holds init B m i vs) : b.size B i = vs.length := by
  have := h.le
  rw [Buffers.size, h.ptr, h.stop]
  omega

/-- The data of different buffers do not overlap. -/
theorem data_notMem {j x : ℕ} (hij : i ≠ j) (hx : x < B) :
    .elem (data B i + x) ∉ seg (data B j) B := by
  simp only [elem_mem_seg, data, Ptr.add_arr, Ptr.add_off, true_and, not_and, not_lt]
  intro hle
  rcases Nat.lt_or_gt_of_ne hij with hlt | hgt
  · have := Nat.mul_le_mul_right B (Nat.succ_le_of_lt hlt)
    rw [Nat.succ_mul] at this
    omega
  · have := Nat.mul_le_mul_right B (Nat.succ_le_of_lt hgt)
    rw [Nat.succ_mul] at this
    omega

/-- A buffer outside of what has changed. -/
theorem Holds.frame {b' : Buffers} (h : b.Holds init B m i vs) (hptr : b'.ptr i = b.ptr i)
    (hstop : b'.stop i = b.stop i) (hf : Frame m m' R) (hd : ∀ x < B, .elem (data B i + x) ∉ R) :
    b'.Holds init B m' i vs where
  ptr := hptr.trans h.ptr
  stop := hstop.trans h.stop
  le := h.le
  has := hf.has h.has fun x hx => hd x (hx.trans_le h.le)
  ready := hf.ready h.ready fun x hx => by
    have := h.le
    rw [Ptr.add_assoc]
    exact hd _ (by omega)

/-- The buffers after the constructor. -/
theorem start_holds (h : Ready init m (data B i) B) : (start B).Holds init B m i ([] : List α) where
  ptr := rfl
  stop := rfl
  le := Nat.zero_le _
  has := has_nil
  ready := h

/-- **A buffer that is not full takes another element.** -/
theorem sat_push {v : α} (h : b.Holds init B m i vs) (hlt : vs.length < B) :
    Sat (slots Area α init) (seg (data B i) B) (b.push init i v) m fun b' m' =>
      b'.Holds init B m' i (vs ++ [v]) ∧
      b' = { b with ptr := Function.update b.ptr i (b.ptr i + 1) } ∧
        Frame m m' (seg (data B i) B) := by
  have hp : (⟨.buffers, b.ptr i⟩ : Ptr Area) = data B i + vs.length := by
    rw [h.ptr]
    rfl
  rw [push, sat_bind, hp]
  refine sat_put (elem_add_mem_seg.mpr hlt) (fun hinit => ?_)
    ⟨⟨?_, h.stop, by simpa using Nat.succ_le_of_lt hlt, ?_, fun hinit x hx => ?_⟩, rfl,
      (Frame.refl m _).set (elem_add_mem_seg.mpr hlt)⟩
  · exact h.ready hinit 0 (by omega)
  · simp [h.ptr, Nat.add_assoc]
  · rw [List.map_append, has_append, List.length_map]
    exact ⟨h.has.set_of_ne fun x hx => by simp only [List.length_map] at hx; simp; omega,
      has_cons.mpr ⟨by simp, has_nil⟩⟩
  · rw [Ptr.add_assoc, Mem.set_slot, Function.update_of_ne (by simp; omega)]
    simp only [List.length_append, List.length_singleton] at hx ⊢
    have := h.ready hinit (1 + x) (by omega)
    rwa [Ptr.add_assoc, ← Nat.add_assoc] at this

/-- **A full buffer is flushed.** -/
theorem sat_writeTo {dest : Ptr Area} (h : b.Holds init B m i vs) (hfull : vs.length = B)
    (hdest : Live m dest B) (harr : dest.arr = .input) :
    Sat (slots Area α init) (seg (data B i) B ∪ seg dest B) (b.writeTo init B i dest) m fun b' m' =>
      b'.Holds init B m' i ([] : List α) ∧ b' = b.resetBuffer B i ∧ Has m' dest (vs.map .full) ∧
        Frame m m' (seg (data B i) B ∪ seg dest B) := by
  have hne : (data B i).arr ≠ dest.arr := by
    rw [harr]
    nofun
  have hptr : (b.resetBuffer B i).ptr i = i * B := Function.update_self ..
  have hstop : (b.resetBuffer B i).stop i - (b.resetBuffer B i).ptr i = B := by
    rw [hptr]
    exact (congrArg (· - i * B) h.stop).trans (Nat.add_sub_cancel_left ..)
  simp only [writeTo, hptr, show (b.resetBuffer B i).stop i - i * B = B from hptr ▸ hstop]
  rw [← bind_assoc, sat_bind]
  refine (Block.sat_writeTo hfull h.has hdest hne).imp fun _ m' hm => ?_
  exact ⟨⟨hptr, h.stop, Nat.zero_le _, has_nil, hm.2.1⟩, rfl, hm.1, hm.2.2⟩

/-- **A buffer whose elements have been moved elsewhere is reset.** -/
theorem sat_reset (hptr : b.ptr i = i * B + k) (hstop : b.stop i = i * B + B) (hk : k ≤ B)
    (hlive : Live m (data B i) k) (hready : Ready init m (data B i + k) (B - k)) :
    Sat (slots Area α init) (seg (data B i) B) (b.reset init B i) m fun b' m' =>
      b'.Holds init B m' i ([] : List α) ∧ b' = b.resetBuffer B i ∧
      Frame m m' (seg (data B i) B) := by
  have hsize : b.size B i = k := by
    rw [Buffers.size, hptr, hstop]
    omega
  have hsub : seg (data B i) k ⊆ seg (data B i) B := seg_mono hk
  rw [reset, sat_bind, hsize]
  refine (sat_destroyRange hlive).mono hsub fun _ m' hm => ?_
  refine ⟨⟨Function.update_self .., hstop, Nat.zero_le _, has_nil, fun hinit x hx => ?_⟩,
    rfl, hm.2.mono hsub⟩
  rcases Nat.lt_or_ge x k with hlt | hge
  · exact hm.1 hinit x hlt
  · have := hready hinit (x - k) (by simp only [List.length_nil] at hx; omega)
    rw [Ptr.add_assoc, Nat.add_sub_of_le hge] at this
    exact (hm.2 _ (by simpa using hge)).trans this

end

end Buffers

end Ps4o.InPlace
