import Ps4o.InPlace.OverflowBlock

/-!
# Block permutation, element by element: the code

`Ps4o.InPlace.BlockPermutation` moves a block in one step. The threads move it element by element,
and other threads go on in the meantime (`permuteBlocks` in `block_permutation.hpp`).

## The model

Between two accesses to the pointers of buckets, a thread does what a program says, command by
command; the programs are those of the source. The accesses are atomic, as in the source. What the
storage of a block is, is a parameter (`BlockStore`): objects with lifetimes, or bits.

## What is proved

* `Place.disjoint` — different places are different parts of the memory.
* `Permuting.Owns.unique` — no two threads own the same place, so what a thread does with its own
  disturbs nobody.
-/

namespace Ps4o.InPlace

open Ps4o.Program Ps4o.Storage Ps4o.Order

variable {α : Type}

/-! ### The code -/

/-- A swap block of thread `i`. -/
def swapOf (kBlockSize i : ℕ) (current : Bool) : Ptr Area := ⟨.swap current, i * kBlockSize⟩

/-- The overflow block of thread `i`. -/
def overflowOf (kBlockSize i : ℕ) : Ptr Area := ⟨.overflow, i * kBlockSize⟩

/-- The access to the pointers of a bucket that a thread makes next. -/
inductive Access where
  /-- In `decRead`, the thread is counted. -/
  | tryRead
  /-- In `decRead`, the read pointer moves. -/
  | decRead
  /-- There are no more blocks in the bucket. -/
  | noBlock
  /-- The block has been read. -/
  | stopRead
  /-- `incWrite`. -/
  | incWrite (dest : ℕ) (current : Bool)
  /-- While somebody may be reading the block. -/
  | isReading (dest : ℕ) (current : Bool) (write : ℤ)
  /-- The overflow block has been written; the thread is about to set `overflow_`. -/
  | overflowed
  /-- None. -/
  | finished
  deriving DecidableEq

/-- A thread: what it does until it accesses pointers again, and its variables. -/
structure Mover (α : Type) where
  /-- What it does. -/
  prog : Act Area α Access
  /-- `count`, the buckets still to go through. -/
  count : ℕ
  /-- `read_bucket`. -/
  readBucket : ℕ
  /-- Whether `overflow_` is set. -/
  overflow : Bool

/-- The memory, the pointers of the buckets, and the threads. -/
structure Working (t : ℕ) (α σ : Type) where
  /-- The memory. -/
  mem : σ
  /-- `bucket_pointers_`. -/
  pointers : ℕ → BucketPointers
  /-- The threads. -/
  workers : Fin t → Mover α

section
variable (comp : α → α → Bool) (kInitializedStorage : Bool) (kBlockSize : ℕ) (kEqualBuckets : Bool)
  (c : Classifier α) (p : Ptr Area)

/-- The bucket of a block. -/
def classifyHead (block : Ptr Area) : Act Area α ℕ := do
  let head ← readAt block
  Prog.ofOption (c.classify comp kEqualBuckets head)

/-- `classifyAndReadBlock`, when there is a block: it is read. -/
def readBlock (i : ℕ) (read : ℤ) : Act Area α Access := do
  Block.readFrom kInitializedStorage (swapOf kBlockSize i false) (p + read.toNat) kBlockSize
  pure .stopRead

/-- `classifyAndReadBlock`: the block that has been read is classified. -/
def classifyBlock (i : ℕ) : Act Area α Access := do
  let dest ← classifyHead comp kEqualBuckets c (swapOf kBlockSize i false)
  pure (.incWrite dest false)

/-- `swapBlock`, when the destination is out of bounds. -/
def writeOverflow (i : ℕ) (current : Bool) : Act Area α Access := do
  -- Out-of-bounds; write to overflow buffer instead
  Block.writeToBlock kInitializedStorage kBlockSize (swapOf kBlockSize i current)
    (overflowOf kBlockSize i)
  pure .overflowed

/-- `swapBlock`, when the destination is empty. -/
def writeBlock (i : ℕ) (current : Bool) (write : ℤ) : Act Area α Access := do
  -- Write block
  Block.writeTo kInitializedStorage kBlockSize (swapOf kBlockSize i current) (p + write.toNat)
  pure .tryRead

/-- `swapBlock`, when there is a block at the destination. -/
def swapBlocks (i dest : ℕ) (current : Bool) (write : ℤ) : Act Area α Access := do
  -- Check if block needs to be moved
  let newDest ← classifyHead comp kEqualBuckets c (p + write.toNat)
  if newDest = dest then
    pure (.incWrite dest current)
  else do
    -- Swap blocks
    Block.readFrom kInitializedStorage (swapOf kBlockSize i !current) (p + write.toNat) kBlockSize
    Block.writeTo kInitializedStorage kBlockSize (swapOf kBlockSize i current) (p + write.toNat)
    pure (.incWrite newDest !current)

/-- The head of the loop over all buckets. -/
def nextBucket (count : ℕ) : Access := if count = 0 then .finished else .tryRead

section
variable {t : ℕ} {σ : Type}

/-- The pointers of bucket `b`, and thread `i`, are replaced. -/
def Working.set (s : Working t α σ) (b : ℕ) (bp : BucketPointers) (i : Fin t) (w : Mover α) :
    Working t α σ :=
  { s with pointers := Function.update s.pointers b bp, workers := Function.update s.workers i w }

/-- Thread `i` is replaced. -/
def Working.continue (s : Working t α σ) (i : Fin t) (w : Mover α) : Working t α σ :=
  { s with workers := Function.update s.workers i w }

/-- Thread `i` has given a command: what is left of its program, and the memory. -/
def Working.answered (s : Working t α σ) (i : Fin t) (prog : Act Area α Access) (m : σ) :
    Working t α σ :=
  { s with mem := m, workers := Function.update s.workers i { s.workers i with prog := prog } }

/-- Thread `i` makes an access to the pointers of a bucket, when there are `nb` buckets and `n`
elements. -/
def Working.access (n nb : ℕ) (i : Fin t) (s : Working t α σ) : Access → Working t α σ
  | .tryRead =>
    let w := s.workers i
    s.set w.readBucket (s.pointers w.readBucket).startRead i { w with prog := .ret .decRead }
  | .decRead =>
    let w := s.workers i
    let bp := s.pointers w.readBucket
    s.set w.readBucket (bp.decRead kBlockSize) i
      { w with
        prog := if bp.read kBlockSize < bp.w then .ret .noBlock
          else readBlock kInitializedStorage kBlockSize p i (bp.read kBlockSize) }
  | .noBlock =>
    let w := s.workers i
    s.set w.readBucket (s.pointers w.readBucket).stopRead i
      { w with
        prog := .ret (nextBucket (w.count - 1))
        count := w.count - 1
        readBucket := (w.readBucket + 1) % nb }
  | .stopRead =>
    let w := s.workers i
    s.set w.readBucket (s.pointers w.readBucket).stopRead i
      { w with prog := classifyBlock comp kBlockSize kEqualBuckets c i }
  | .incWrite dest current =>
    let w := s.workers i
    let bp := s.pointers dest
    s.set dest (bp.incWrite kBlockSize) i
      { w with
        prog :=
          if bp.r < bp.w then
            if maxOff kBlockSize n ≤ bp.w then
              writeOverflow kInitializedStorage kBlockSize i current
            else .ret (.isReading dest current bp.w)
          else
            swapBlocks comp kInitializedStorage kBlockSize kEqualBuckets c p i dest current bp.w }
  | .isReading dest current write =>
    if (s.pointers dest).isReading then s
    else
      s.continue i { s.workers i with
        prog := writeBlock kInitializedStorage kBlockSize p i current write }
  | .overflowed => s.continue i { s.workers i with prog := .ret .tryRead, overflow := true }
  | .finished => s

variable {Loc : Type} (S : Semantics (Cmd Area α) Cmd.Ans σ Loc)

/-- Thread `i` takes a step: a command, or an access; none when what it does is undefined. -/
def Working.step (n nb : ℕ) (i : Fin t) (choice : ℕ) (s : Working t α σ) : Option (Working t α σ) :=
  match (s.workers i).prog with
  | .ret a => some (s.access comp kInitializedStorage kBlockSize kEqualBuckets c p n nb i a)
  | .cmd o k => (S.exec o choice s.mem).map fun r => s.answered i (k r.1) r.2
  | .halt _ => none

/-- What the threads can come to. -/
inductive Working.Reaches (n nb : ℕ) (s₀ : Working t α σ) : Working t α σ → Prop where
  /-- Nobody has taken a step. -/
  | start : Working.Reaches n nb s₀ s₀
  /-- Thread `i` takes a step. -/
  | step {s s' : Working t α σ} (i : Fin t) (choice : ℕ) (h : Working.Reaches n nb s₀ s)
      (hs : s.step comp kInitializedStorage kBlockSize kEqualBuckets c p S n nb i choice =
        some s') :
      Working.Reaches n nb s₀ s'

end

end

/-- What the threads begin with. -/
def Working.start {σ : Type} (nb t : ℕ) (pointers : ℕ → BucketPointers) (m : σ) : Working t α σ :=
  ⟨m, pointers, fun i => ⟨.ret (nextBucket nb), nb, startBucket nb t i, false⟩⟩

/-! ### The storage of blocks -/

/-- Storage in which blocks can be moved: what it means that there is a block, and that there is
none. -/
structure BlockStore {σ : Type} (S : Semantics (Cmd Area α) Cmd.Ans σ (Loc Area)) (init : Bool)
    (B : ℕ) where
  /-- The elements of a block. -/
  Full : σ → Ptr Area → List α → Prop
  /-- There is room for a block. -/
  Vacant : σ → Ptr Area → Prop
  full_congr {m m' : σ} {q : Ptr Area} {l : List α} :
    S.AgreeOn (seg q B) m m' → Full m q l → Full m' q l
  vacant_congr {m m' : σ} {q : Ptr Area} : S.AgreeOn (seg q B) m m' → Vacant m q → Vacant m' q
  /-- The first element can be looked at. -/
  sat_readAt {m : σ} {q : Ptr Area} {x : α} {l : List α} : Full m q (x :: l) →
    Sat S (seg q B) (readAt q) m fun y m' => y = x ∧ m' = m
  sat_readFrom {m : σ} {src block : Ptr Area} {l : List α} : src.arr = .input →
    block.arr ≠ .input → Full m src l → Vacant m block →
    Sat S (seg src B ∪ seg block B) (Block.readFrom init block src B) m fun _ m' =>
      Full m' block l ∧ Vacant m' src
  sat_writeTo {m : σ} {block dest : Ptr Area} {l : List α} : block.arr ≠ .input →
    dest.arr = .input → Full m block l → Vacant m dest →
    Sat S (seg block B ∪ seg dest B) (Block.writeTo init B block dest) m fun _ m' =>
      Full m' dest l ∧ Vacant m' block
  sat_writeToBlock {m : σ} {block other : Ptr Area} {l : List α} : block.arr ≠ .input →
    other.arr ≠ .input → block.arr ≠ other.arr → Full m block l → Vacant m other →
    Sat S (seg block B ∪ seg other B) (Block.writeToBlock init B block other) m fun _ m' =>
      Full m' other l ∧ Vacant m' block

section
variable {init : Bool} {B : ℕ} {q : Ptr Area} {l : List α} {m m' : Mem Area (Slot α)}

/-- A block of objects. -/
def IsFull (B : ℕ) (m : Mem Area (Slot α)) (q : Ptr Area) (l : List α) : Prop :=
  l.length = B ∧ Has m q (l.map .full)

/-- Room for a block of objects: objects to be assigned to in the array, storage elsewhere. -/
def IsVacant (init : Bool) (B : ℕ) (m : Mem Area (Slot α)) (q : Ptr Area) : Prop :=
  if q.arr = .input then Live m q B else Ready init m q B

theorem isVacant_input (h : q.arr = .input) : IsVacant init B m q ↔ Live m q B := by
  rw [IsVacant, if_pos h]

theorem isVacant_block (h : q.arr ≠ .input) : IsVacant init B m q ↔ Ready init m q B := by
  rw [IsVacant, if_neg h]

/-- Objects with lifetimes. -/
def objectStore (init : Bool) (B : ℕ) (hB : 1 ≤ B) : BlockStore (slots Area α init) init B where
  Full := IsFull B
  Vacant := IsVacant init B
  full_congr := by
    intro m m' q l hm h
    refine ⟨h.1, h.2.of_eq fun i hi => hm (.elem (q + i)) ?_⟩
    rw [List.length_map, h.1] at hi
    exact elem_add_mem_seg.mpr hi
  vacant_congr := by
    intro m m' q hm h
    have heq : ∀ i < B, m.slot (q + i) = m'.slot (q + i) := fun i hi =>
      hm (.elem (q + i)) (elem_add_mem_seg.mpr hi)
    unfold IsVacant at h ⊢
    split_ifs at h ⊢
    · exact fun i hi => heq i hi ▸ h i hi
    · exact fun hinit i hi => heq i hi ▸ h hinit i hi
  sat_readAt := by
    intro m q x l h
    exact sat_readAt (elem_mem_seg_self.mpr hB) (h.2 0 _ rfl) ⟨rfl, rfl⟩
  sat_readFrom := by
    intro m src block l hsrc hblock h hv
    rw [isVacant_block hblock] at hv
    refine (Block.sat_readFrom h.1 h.2 hv (hsrc ▸ hblock.symm)).imp ?_
    rintro _ m' ⟨hhas, hmoved, -⟩
    refine ⟨⟨h.1, hhas⟩, (isVacant_input hsrc).mpr fun i hi => ?_⟩
    rw [hmoved i hi]
    simp
  sat_writeTo := by
    intro m block dest l hblock hdest h hv
    rw [isVacant_input hdest] at hv
    refine (Block.sat_writeTo h.1 h.2 hv (hdest ▸ hblock)).imp ?_
    rintro _ m' ⟨hhas, hready, -⟩
    exact ⟨⟨h.1, hhas⟩, (isVacant_block hblock).mpr hready⟩
  sat_writeToBlock := by
    intro m block other l hblock hother hne h hv
    rw [isVacant_block hother] at hv
    refine (Block.sat_writeToBlock h.1 h.2 hv hne).imp ?_
    rintro _ m' ⟨hhas, hready, -⟩
    exact ⟨⟨h.1, hhas⟩, (isVacant_block hblock).mpr hready⟩

end

/-! ### Places -/

section
variable {t B n : ℕ} {p : Ptr Area}

/-- Where a place is. -/
def Place.ptr (B : ℕ) (p : Ptr Area) : Place t → Ptr Area
  | .slot q => p + q.toNat
  | .swap i c => swapOf B i c
  | .overflow i => overflowOf B i

/-- A slot that lies in the array as a whole, or a block of a thread. -/
def Place.Real (B n : ℕ) : Place t → Prop
  | .slot q => (B : ℤ) ∣ q ∧ 0 ≤ q ∧ q < maxOff B n
  | .swap _ _ | .overflow _ => True

/-- The slots of some places. -/
def spaceOf (B : ℕ) (p : Ptr Area) (L : List (Place t)) : Set (Loc Area) :=
  {x | ∃ l ∈ L, x ∈ seg (l.ptr B p) B}

theorem seg_subset_spaceOf {L : List (Place t)} {l : Place t} (h : l ∈ L) :
    seg (l.ptr B p) B ⊆ spaceOf B p L := fun _ hx => ⟨l, h, hx⟩

theorem seg_union_subset_spaceOf {L : List (Place t)} {l l' : Place t} (h : l ∈ L) (h' : l' ∈ L) :
    seg (l.ptr B p) B ∪ seg (l'.ptr B p) B ⊆ spaceOf B p L :=
  Set.union_subset (seg_subset_spaceOf h) (seg_subset_spaceOf h')

theorem exists_block {q : ℤ} (hq : (B : ℤ) ∣ q) (h₀ : 0 ≤ q) : ∃ k : ℕ, q.toNat = k * B := by
  obtain ⟨k, rfl⟩ := Int.eq_ofNat_of_zero_le h₀
  obtain ⟨j, rfl⟩ := Int.natCast_dvd_natCast.mp hq
  exact ⟨j, by rw [Int.toNat_natCast, Nat.mul_comm]⟩

/-- Places do not overlap. -/
theorem Place.disjoint (hp : p.arr = .input) {l l' : Place t} (hne : l ≠ l') (hl : l.Real B n)
    (hl' : l'.Real B n) {x : Loc Area} (hx : x ∈ seg (l.ptr B p) B) : x ∉ seg (l'.ptr B p) B := by
  obtain ⟨u, hu, rfl⟩ := hx
  rintro ⟨v, hv, he⟩
  have hptr := Loc.elem.inj he
  have harr : (l.ptr B p).arr = (l'.ptr B p).arr := (congrArg Ptr.arr hptr :)
  have hoff : (l.ptr B p).off + u = (l'.ptr B p).off + v := (congrArg Ptr.off hptr :)
  cases l with
  | slot q =>
    cases l' with
    | slot q' =>
      obtain ⟨k, hk⟩ := exists_block hl.1 hl.2.1
      obtain ⟨k', hk'⟩ := exists_block hl'.1 hl'.2.1
      simp only [Place.ptr, Ptr.add_off, hk, hk'] at hoff
      have hblock : k * B + u = k' * B + v := by omega
      obtain ⟨rfl, -⟩ := add_mul_inj hu hv hblock
      apply hne
      rw [← Int.toNat_of_nonneg hl.2.1, ← Int.toNat_of_nonneg hl'.2.1, hk, hk']
    | swap i c => simp [Place.ptr, swapOf, hp] at harr
    | overflow i => simp [Place.ptr, overflowOf, hp] at harr
  | swap i c =>
    cases l' with
    | slot q' => simp [Place.ptr, swapOf, hp] at harr
    | swap j c' =>
      obtain ⟨hij, -⟩ := add_mul_inj hu hv hoff
      have hc : c = c' := by simpa [Place.ptr, swapOf] using harr
      exact hne (by rw [Fin.ext hij, hc])
    | overflow j => simp [Place.ptr, swapOf, overflowOf] at harr
  | overflow i =>
    cases l' with
    | slot q' => simp [Place.ptr, overflowOf, hp] at harr
    | swap j c => simp [Place.ptr, swapOf, overflowOf] at harr
    | overflow j =>
      obtain ⟨hij, -⟩ := add_mul_inj hu hv hoff
      exact hne (by rw [Fin.ext hij])

end

section
variable {t : ℕ} {β : Type} {B n nb : ℕ} {bss full : ℕ → ℕ} {classify : Option β → ℕ}
  {s₀ s s' : Permuting t β} {i j : Fin t} {l : Place t}

/-- Thread `i` may use a place: it is one of its blocks, or a slot that it has claimed to read or
write a block. -/
def Permuting.Owns (s : Permuting t β) (i : Fin t) : Place t → Prop
  | .slot q => ∃ k, s.Claims q i k ∧ (k = .read ∨ k = .hold ∨ k = .fill)
  | .swap j _ | .overflow j => j = i

/-- What a thread owns depends on where it is. -/
theorem Permuting.Owns.congr (h : s.Owns i l) (hth : s'.threads i = s.threads i) : s'.Owns i l := by
  cases l with
  | slot q =>
    obtain ⟨k, hk, hkind⟩ := h
    refine ⟨k, ?_, hkind⟩
    rw [Permuting.Claims, hth]
    exact hk
  | swap j c => exact h
  | overflow j => exact h

variable [Fintype β] (h : Boundaries false nb n bss) (hB : 1 ≤ B)
  (hcl : Classified B n nb bss full classify s₀)
include h hcl

/-- **No two threads own the same place.** -/
theorem Permuting.Owns.unique (hI : Inv B n nb bss classify s₀ s) (hi : s.Owns i l)
    (hj : s.Owns j l) : j = i := by
  cases l with
  | swap k c => exact hj.symm.trans hi
  | overflow k => exact hj.symm.trans hi
  | slot q =>
    obtain ⟨k, hk, hkind⟩ := hi
    obtain ⟨k', hk', hkind'⟩ := hj
    obtain ⟨b, hb, hin, hslot⟩ := hI.claimed h hcl hk
    rcases hkind with rfl | rfl | rfl
    · obtain ⟨-, x, -, -, ⟨-, hc⟩ | ⟨-, i', -, hc⟩⟩ := hslot.read hk
      · exact ((hc j k').mp hk').1
      · rcases (hc j k').mp hk' with ⟨-, rfl⟩ | ⟨hji, -⟩
        · simp at hkind'
        · exact hji
    · exact ((hslot.hold hk).2.2 j k' |>.mp hk').1
    · exact ((hslot.fill hk).2.2.2 j k' |>.mp hk').1

include hB

/-- Where there is a block is a place. -/
theorem Reachable.real_of_some (hr : Reachable B n nb classify s₀ s) {x : β}
    (hx : s.content l = some x) : l.Real B n := by
  cases l with
  | slot q =>
    obtain ⟨b, -, hin, -⟩ := (hr.inv h hB hcl).bucket_of_slot hx
    refine ⟨hin.1, ?_, hr.slot_lt h hB hcl q x hx⟩
    exact (Int.natCast_nonneg _).trans hin.2.1
  | swap i c => trivial
  | overflow i => trivial

/-- What a thread owns is there. -/
theorem Permuting.Owns.real (hr : Reachable B n nb classify s₀ s) (hi : s.Owns i l) :
    l.Real B n := by
  cases l with
  | swap k c => trivial
  | overflow k => trivial
  | slot q =>
    obtain ⟨k, hk, hkind⟩ := hi
    have hI := hr.inv h hB hcl
    obtain ⟨b, hb, hin, hslot⟩ := hI.claimed h hcl hk
    rcases hkind with rfl | rfl | rfl
    · obtain ⟨-, x, hx, -⟩ := hslot.read hk
      exact hr.real_of_some h hB hcl hx
    · obtain ⟨-, ⟨x, hx, -⟩, -⟩ := hslot.hold hk
      exact hr.real_of_some h hB hcl hx
    · exact ⟨hin.1, (Int.natCast_nonneg _).trans hin.2.1, (hslot.fill hk).2.1⟩

end

end Ps4o.InPlace
