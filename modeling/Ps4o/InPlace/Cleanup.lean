import Ps4o.InPlace.MarginWriting

/-!
# Filling the margins

What one thread does with a bucket, and with all of them.

## What is proved

* `sat_writeBucket` — a bucket then holds its elements, in each of the cases: the overflow block is
  its own; its last block reaches beyond its end; neither. What the code declares impossible does
  not happen.
* `sat_writeMargins` — so does every bucket, and all buffers are empty.
-/

namespace Ps4o.InPlace

open Ps4o.Program Ps4o.Storage Ps4o.Order

variable {α : Type}

/-! ### Filling a bucket -/

/-- Where the margins of bucket `i` are, and the blocks of the bucket. -/
def bucketSpace (B n : ℕ) (p : Ptr Area) (bss : ℕ → ℕ) (i : ℕ) : Set (Loc Area) :=
  seg (p + bss i) (min (alignToNextBlock B (bss (i + 1))) n - bss i)

/-- The overflow block, if it is used. -/
def overflowSpace (B : ℕ) (o : Bool) : Set (Loc Area) := {l | o = true ∧ l ∈ seg overflowBlock B}

/-- The elements of bucket `i`: `main` in its blocks in the array, `last` in the overflow block, if
it has one there, and `buf` in the buffer. -/
structure Parts (init : Bool) (B n : ℕ) (p : Ptr Area) (s : Sorter α) (m : Mem Area (Slot α))
    (i blocks : ℕ) (o : Bool) (main last buf : List α) : Prop where
  w : (s.data.bucketPointers i).w = (alignToNextBlock B (s.bucketStart i) + blocks * B : ℕ)
  size : s.bucketStart (i + 1) = s.bucketStart i + blocks * B + buf.length
  le_n : s.bucketStart (i + 1) ≤ n
  lazy : 1 ≤ blocks → buf ≠ []
  buffer : s.data.buffers.Holds init B m i buf
  hasMain : Has m (p + alignToNextBlock B (s.bucketStart i)) (main.map .full)
  live : Live m p n
  noOverflow : o = false → last = [] ∧ main.length = blocks * B ∧
    (1 ≤ blocks → alignToNextBlock B (s.bucketStart i) + blocks * B ≤ n)
  overflow : o = true → last.length = B ∧ main.length + B = blocks * B ∧
    n < alignToNextBlock B (s.bucketStart i) + blocks * B ∧ Has m overflowBlock (last.map .full)

/-- The elements that are not in the buffer are at the front of the bucket, and at the back, and
there is room for those in the buffer between and behind. -/
structure HeadWritten (init : Bool) (B n : ℕ) (p : Ptr Area) (s : Sorter α) (m : Mem Area (Slot α))
    (i : ℕ) (r : Ptr Area × Option ℕ) (front l₁ back l₂ : List α) : Prop where
  filled : HeadFilled p (s.bucketStart i) (s.bucketStart (i + 1))
    (s.data.bucketPointers i).w.toNat m r (front.map .full) l₁.length (back.map .full) l₂.length
  buffer : s.data.buffers.Holds init B m i (l₁ ++ l₂)
  live : Live m p n

section
variable {init : Bool} {B n i blocks : ℕ} {p : Ptr Area} {s : Sorter α} {m : Mem Area (Slot α)}
  {o : Bool} {main last buf : List α}

theorem Parts.extent (h : Parts init B n p s m i blocks o main last buf) :
    Extent B n (s.bucketStart i) (s.bucketStart (i + 1)) (s.data.bucketPointers i).w.toNat blocks o
      (main.map Slot.full).length buf.length := by
  have hw : (s.data.bucketPointers i).w.toNat =
      alignToNextBlock B (s.bucketStart i) + blocks * B := by rw [h.w, Int.toNat_natCast]
  refine ⟨hw, h.size, h.le_n, fun hblocks => List.length_pos_iff.mpr (h.lazy hblocks), ?_, ?_⟩
  · intro ho
    obtain ⟨-, hmain, hn⟩ := h.noOverflow ho
    rw [List.length_map, hw]
    exact ⟨hmain, hn⟩
  · intro ho
    obtain ⟨-, hmain, hover, -⟩ := h.overflow ho
    rw [List.length_map, hw]
    exact ⟨hmain, hover⟩

variable (hB : 1 ≤ B)
include hB

/-- Neither the overflow block nor an excess: the elements of the buffer go around the blocks. -/
theorem Parts.around (h : Parts init B n p s m i blocks false main last buf)
    (hno : ¬ (s.bucketStart (i + 1) < (s.data.bucketPointers i).w.toNat ∧
      B < s.bucketStart (i + 1) - s.bucketStart i)) :
    HeadWritten init B n p s m i
      (p + s.bucketStart i, some (alignToNextBlock B (s.bucketStart i) - s.bucketStart i)) []
        (buf.take (alignToNextBlock B (s.bucketStart i) - s.bucketStart i)) main
      (buf.drop (alignToNextBlock B (s.bucketStart i) - s.bucketStart i)) := by
  refine ⟨?_, by rw [List.take_append_drop]; exact h.buffer, h.live⟩
  rw [List.length_take, List.length_drop]
  exact h.extent.around hB h.hasMain hno

variable (hp : p.arr = .input)
include hp

/-- The excess of a bucket goes to its head. -/
theorem Parts.sat_excess (h : Parts init B n p s m i blocks false main last buf)
    (hlt : s.bucketStart (i + 1) < (s.data.bucketPointers i).w.toNat)
    (hone : B < s.bucketStart (i + 1) - s.bucketStart i) :
    Sat (slots Area α init) (bucketSpace B n p s.bucketStart i)
      (do
        moveRange (p + s.bucketStart (i + 1)) (p + s.bucketStart i)
          ((s.data.bucketPointers i).w.toNat - s.bucketStart (i + 1))
        pure (p + (s.bucketStart i + ((s.data.bucketPointers i).w.toNat - s.bucketStart (i + 1))),
          some (alignToNextBlock B (s.bucketStart i) - s.bucketStart i -
            ((s.data.bucketPointers i).w.toNat - s.bucketStart (i + 1))))) m fun r m' =>
      HeadWritten init B n p s m' i r
        (main.drop (s.bucketStart (i + 1) - alignToNextBlock B (s.bucketStart i))) buf
        (main.take (s.bucketStart (i + 1) - alignToNextBlock B (s.bucketStart i))) [] := by
  have hblocks := h.extent.blocks_of_excess hB hlt hone
  have halign := h.extent.align hB hblocks hlt.le
  obtain ⟨hlen, hroom, hle⟩ := h.extent.excess hB hlt hblocks
  obtain ⟨hback, hexcess⟩ := h.extent.has_main hB hlt hblocks h.hasMain
  have hn := (h.extent.noOverflow rfl).2 hblocks
  set w := (s.data.bucketPointers i).w.toNat
  set keep := s.bucketStart (i + 1) - alignToNextBlock B (s.bucketStart i)
  rw [List.length_map] at hlen
  have hdrop : (main.drop keep).length = w - s.bucketStart (i + 1) := by
    rw [← h.extent.length_excess hB hlt hblocks, ← List.map_drop, List.length_map]
  have htake : (main.take keep).length = keep := List.length_take_of_le (by omega)
  rw [← List.map_take] at hback
  rw [← List.map_drop] at hexcess
  have hlive : Live m (p + s.bucketStart i) (w - s.bucketStart (i + 1)) := fun j hj => by
    rw [Ptr.add_assoc]
    exact h.live _ (by omega)
  have hne : ∀ j < w - s.bucketStart (i + 1), ∀ j' < w - s.bucketStart (i + 1),
      p + s.bucketStart (i + 1) + j ≠ p + s.bucketStart i + j' := by
    intro j hj j' hj'
    rw [Ptr.add_assoc, Ptr.add_assoc, ne_eq, Ptr.add_inj]
    omega
  have hspace : seg (p + s.bucketStart (i + 1)) (w - s.bucketStart (i + 1)) ∪
      seg (p + s.bucketStart i) (w - s.bucketStart (i + 1)) ⊆
      bucketSpace B n p s.bucketStart i := by
    rw [bucketSpace, halign]
    exact Set.union_subset (seg_subset_add (by omega) (by omega)) (seg_mono (by omega))
  rw [sat_bind]
  refine (sat_moveRange hdrop hexcess hlive hne).mono hspace ?_
  rintro _ m' ⟨hfront, hmoved, hframe⟩
  have hkept : ∀ j < (main.take keep).length,
      .elem (p + alignToNextBlock B (s.bucketStart i) + j) ∉
        seg (p + s.bucketStart (i + 1)) (w - s.bucketStart (i + 1)) ∪
          seg (p + s.bucketStart i) (w - s.bucketStart (i + 1)) := by
    rintro j hj (hmem | hmem)
    all_goals
      simp only [elem_mem_seg, Ptr.add_off, Ptr.add_arr, true_and] at hmem
      omega
  have hback' := hframe.has hback hkept
  refine ⟨?_, ?_, live_of_moves h.live hdrop hfront hmoved hframe⟩
  · rw [List.map_drop] at hfront ⊢
    rw [List.map_take] at hback' ⊢
    exact h.extent.headFilled_excess hB hlt hblocks hfront hback'
  · rw [List.append_nil]
    refine h.buffer.frame rfl rfl hframe fun x _ hmem => ?_
    rcases hmem with hmem | hmem
    all_goals exact notMem_seg_of_arr (by simp [Buffers.data, hp]) hmem

/-- The overflow block goes to the head, and behind the blocks in the array. -/
theorem Parts.sat_overflow (h : Parts init B n p s m i blocks true main last buf) :
    Sat (slots Area α init) (bucketSpace B n p s.bucketStart i ∪ seg overflowBlock B)
      (do
        moveRange overflowBlock (p + s.bucketStart i)
          (alignToNextBlock B (s.bucketStart i) - s.bucketStart i)
        moveRange (overflowBlock + (alignToNextBlock B (s.bucketStart i) - s.bucketStart i))
          (p + ((s.data.bucketPointers i).w.toNat - B))
          (B - (alignToNextBlock B (s.bucketStart i) - s.bucketStart i))
        Block.reset init overflowBlock B
        pure (p + ((s.data.bucketPointers i).w.toNat - B) +
          (B - (alignToNextBlock B (s.bucketStart i) - s.bucketStart i)), none)) m fun r m' =>
      HeadWritten init B n p s m' i r
        (last.take (alignToNextBlock B (s.bucketStart i) - s.bucketStart i) ++
          (main ++ last.drop (alignToNextBlock B (s.bucketStart i) - s.bucketStart i))) buf [] [] ∧
      Ready init m' overflowBlock B := by
  have hle := le_alignToNextBlock hB (s.bucketStart i)
  have hlt' := alignToNextBlock_lt hB (s.bucketStart i)
  have hsize := h.size
  have hn := h.le_n
  have hwrite := h.extent.write_eq
  obtain ⟨hlast, -, -, hhas⟩ := h.overflow rfl
  obtain ⟨hmain, hover⟩ := h.extent.overflow rfl
  have hblocks := h.extent.blocks_of_overflow hB
  have hpos := h.extent.lazy hblocks
  have halign := h.extent.align hB hblocks (by omega)
  rw [List.length_map] at hmain
  set w := (s.data.bucketPointers i).w.toNat
  set a := alignToNextBlock B (s.bucketStart i)
  set rem := a - s.bucketStart i with hrem
  have htake : (last.take rem).length = rem := List.length_take_of_le (by omega)
  have hdrop : (last.drop rem).length = B - rem := by rw [List.length_drop, hlast]
  have hboth : (last.take rem ++ last.drop rem).length = B := by rw [List.take_append_drop, hlast]
  have hspace : ∀ {x k : ℕ}, s.bucketStart i ≤ x → x + k ≤ n →
      seg (p + x) k ⊆ bucketSpace B n p s.bucketStart i := by
    intro x k h₁ h₂
    rw [bucketSpace, halign, Nat.min_eq_right hover.le]
    exact seg_subset_add h₁ (by omega)
  have hother : ∀ {q : Ptr Area} {x : ℕ}, q.arr = .input → .elem (q + x) ∉ seg overflowBlock B :=
    fun hq => notMem_seg_of_arr (by simp [overflowBlock, hq])
  have hne : overflowBlock.arr ≠ (p + s.bucketStart i).arr := by simp [overflowBlock, hp]
  have hne' : overflowBlock.arr ≠ (p + (w - B)).arr := by simp [overflowBlock, hp]
  rw [← List.take_append_drop rem last] at hhas
  refine sat_moveApart h.live hne ?_ ?_ htake hhas hne' ?_ ?_ hdrop (fun j hj hmem => ?_)
    fun m₁ hm => ?_
  · rw [htake]
    exact seg_subset (by omega)
  · rw [htake]
    exact Set.union_subset ((seg_mono (by omega)).trans Set.subset_union_right)
      ((hspace le_rfl (by omega)).trans Set.subset_union_left)
  · rw [hdrop]
    exact seg_subset (by omega)
  · rw [hdrop]
    exact Set.union_subset ((seg_subset (by omega)).trans Set.subset_union_right)
      ((hspace (by omega) (by omega)).trans Set.subset_union_left)
  · simp only [elem_mem_seg, Ptr.add_off, Ptr.add_arr, true_and] at hmem
    omega
  -- the overflow block is empty then
  have hmoved : Live m₁ overflowBlock B := fun j hj => by simp [hm.moved j (hboth ▸ hj)]
  rw [sat_bind]
  refine (sat_destroyRange hmoved).mono Set.subset_union_right ?_
  rintro _ m₂ ⟨hready, hframe⟩
  have hkeep : ∀ {q : Ptr Area} {vs : List α}, q.arr = .input → Has m₁ q (vs.map .full) →
      Has m₂ q (vs.map .full) := fun hq hvs => hframe.has hvs fun x _ => hother hq
  have hmain₁ : Has m₁ (p + a) (main.map .full) := by
    refine hm.frame.has h.hasMain fun x hx hmem => ?_
    rw [hboth] at hmem
    rcases hmem with (hmem | hmem) | hmem
    · simp only [elem_mem_seg, Ptr.add_off, Ptr.add_arr, true_and] at hmem
      omega
    · simp only [elem_mem_seg, Ptr.add_off, Ptr.add_arr, true_and] at hmem
      omega
    · exact hother (by simp [hp]) hmem
  have hbuffer : s.data.buffers.Holds init B m₁ i buf := by
    refine h.buffer.frame rfl rfl hm.frame fun x _ hmem => ?_
    rcases hmem with (hmem | hmem) | hmem
    · exact notMem_seg_of_arr (by simp [hp, Buffers.data]) hmem
    · exact notMem_seg_of_arr (by simp [hp, Buffers.data]) hmem
    · exact notMem_seg_of_arr (by simp [overflowBlock, Buffers.data]) hmem
  have hfront := hkeep (by simp [hp]) hm.hasDst
  have hback := hkeep (by simp [hp]) hm.hasTail
  refine ⟨⟨?_, ?_, ?_⟩, hready⟩
  · rw [List.map_append, List.map_append]
    rw [List.map_take] at hfront ⊢
    rw [List.map_drop] at hback ⊢
    exact h.extent.headFilled_overflow hB (by rw [List.length_map, hlast]) hfront
      (hkeep (by simp [hp]) hmain₁) hback
  · rw [List.append_nil]
    exact hbuffer.frame rfl rfl hframe fun x _ =>
      notMem_seg_of_arr (by simp [overflowBlock, Buffers.data])
  · exact hframe.live hm.live fun x _ => hother hp

/-- **The head of a bucket**, in each of the cases. -/
theorem sat_writeHead (h : Parts init B n p s m i blocks o main last buf)
    {overflowBucket : Option ℕ} (ho : o = true ↔ some i = overflowBucket ∧ s.overflow = true) :
    Sat (slots Area α init) (bucketSpace B n p s.bucketStart i ∪ overflowSpace B o)
      (writeHead init B p overflowBucket none 0 s i) m fun r m' => ∃ front l₁ back l₂,
        HeadWritten init B n p s m' i r front l₁ back l₂ ∧ buf = l₁ ++ l₂ ∧
        (front ++ back).Perm (main ++ last) ∧ (o = true → Ready init m' overflowBlock B) := by
  have hle := le_alignToNextBlock hB (s.bucketStart i)
  have hlt' := alignToNextBlock_lt hB (s.bucketStart i)
  have hsize := h.size
  have hwrite := h.extent.write_eq
  have hw : (s.data.bucketPointers i).w = ((s.data.bucketPointers i).w.toNat : ℕ) := by
    rw [hwrite, h.w]
  rw [writeHead]
  cases o with
  | true =>
    obtain ⟨-, hover⟩ := h.extent.overflow rfl
    have hblocks := h.extent.blocks_of_overflow hB
    have hpos := h.extent.lazy hblocks
    have halign := h.extent.align hB hblocks (h.le_n.trans hover.le)
    have hone := Nat.mul_le_mul_right B hblocks
    dsimp only
    rw [if_pos (ho.mp rfl), if_neg (by omega), show ((s.data.bucketPointers i).w - (B : ℤ)).toNat =
      (s.data.bucketPointers i).w.toNat - B by omega]
    refine (h.sat_overflow hB hp).mono (Set.union_subset_union_right _ fun l hl => ⟨rfl, hl⟩) ?_
    rintro r m' ⟨hhead, hready⟩
    refine ⟨_, buf, [], [], hhead, (List.append_nil buf).symm, ?_, fun _ => hready⟩
    rw [List.append_nil]
    exact perm_overflow _
  | false =>
    obtain ⟨rfl, -, -⟩ := h.noOverflow rfl
    dsimp only
    rw [if_neg fun hcond => by simpa using ho.mpr hcond, if_neg (by simp)]
    by_cases hcase : s.bucketStart (i + 1) < (s.data.bucketPointers i).w.toNat ∧
        B < s.bucketStart (i + 1) - s.bucketStart i
    · have hblocks := h.extent.blocks_of_excess hB hcase.1 hcase.2
      have halign := h.extent.align hB hblocks hcase.1.le
      obtain ⟨-, hroom, -⟩ := h.extent.excess hB hcase.1 hblocks
      have hsub : ((s.data.bucketPointers i).w - (s.bucketStart (i + 1) : ℤ)).toNat =
          (s.data.bucketPointers i).w.toNat - s.bucketStart (i + 1) := by omega
      rw [if_pos ⟨by omega, hcase.2⟩, hsub, if_neg (by omega)]
      refine (h.sat_excess hB hp hcase.1 hcase.2).mono Set.subset_union_left ?_
      intro r m' hhead
      refine ⟨_, buf, _, [], hhead, (List.append_nil buf).symm, ?_, nofun⟩
      rw [List.append_nil]
      exact perm_excess _
    · rw [if_neg fun hcond => hcase ⟨by omega, hcond.2⟩]
      refine ⟨[], _, main, _, h.around hB hcase, (List.take_append_drop _ buf).symm, ?_, nofun⟩
      rw [List.append_nil, List.nil_append]

omit hB in
/-- The elements of the buffer complete a bucket whose head has been written. -/
theorem HeadWritten.sat_writeBuffer {r : Ptr Area × Option ℕ} {front l₁ back l₂ : List α}
    (h : HeadWritten init B n p s m i r front l₁ back l₂) (hn : s.bucketStart (i + 1) ≤ n) :
    Sat (slots Area α init) (seg p n ∪ seg (Buffers.data B i) B)
      (writeBuffer init B s.data.buffers i r.1 r.2 (p + (s.data.bucketPointers i).w.toNat)) m
        fun b' m' =>
      b'.Holds init B m' i ([] : List α) ∧ b' = s.data.buffers.resetBuffer B i ∧
        Has m' (p + s.bucketStart i) ((front ++ (l₁ ++ (back ++ l₂))).map .full) ∧ Live m' p n ∧
        Frame m m' (seg (p + s.bucketStart i) (s.bucketStart (i + 1) - s.bucketStart i) ∪ seg
          (Buffers.data B i) B) := by
  have hsize := h.filled.size
  have hspace : seg (p + s.bucketStart i) (s.bucketStart (i + 1) - s.bucketStart i) ⊆ seg p n :=
    seg_subset (by omega)
  have hdst := h.filled.dst_subset
  have htail := h.filled.tail_subset
  have hother : ∀ {x : ℕ}, .elem (p + x) ∉ seg (Buffers.data B i) B :=
    notMem_seg_of_arr (by simp [hp, Buffers.data])
  have harr : (p + (s.data.bucketPointers i).w.toNat).arr = .input := hp
  refine (InPlace.sat_writeBuffer h.buffer hp (by rw [h.filled.dst]; exact hp) harr
    (h.filled.remaining.imp_right (And.imp_left List.length_eq_zero_iff.mp)) h.live
    (hdst.trans hspace) (htail.trans hspace) fun j hj => h.filled.disjoint hj).imp ?_
  rintro b' m' ⟨hb', hreset, hhas₁, hhas₂, hlive, hframe⟩
  refine ⟨hb', hreset, ?_, hlive,
    hframe.mono (Set.union_subset (Set.union_subset ?_ ?_) Set.subset_union_right)⟩
  · rw [List.map_append, List.map_append, List.map_append]
    refine h.filled.filled (List.length_map _) (List.length_map _) ?_ hhas₁ ?_ hhas₂
    · refine hframe.has h.filled.hasFront fun x hx hmem => ?_
      rcases hmem with hmem | hmem
      · exact h.filled.front_notMem (by rwa [List.length_map]) hmem
      · rw [Ptr.add_assoc] at hmem
        exact hother hmem
    · refine hframe.has h.filled.hasBack fun x hx hmem => ?_
      rcases hmem with hmem | hmem
      · exact h.filled.back_notMem (by rwa [List.length_map]) hmem
      · rw [Ptr.add_assoc] at hmem
        exact hother hmem
  · exact hdst.trans Set.subset_union_left
  · exact htail.trans Set.subset_union_left

/-- **The bucket holds its elements** then, and its buffer is empty. -/
theorem sat_writeBucket {comp : α → α → Bool} {cfg : Config} {lastLevel : Bool}
    (h : Parts init B n p s m i blocks o main last buf) {overflowBucket : Option ℕ}
    (ho : o = true ↔ some i = overflowBucket ∧ s.overflow = true) :
    Sat (slots Area α init) (seg p n ∪ seg overflowBlock B ∪ seg (Buffers.data B i) B)
      (writeBucket comp cfg init B p lastLevel overflowBucket none 0 s i) m fun s' m' =>
      ∃ zs : List α, zs.Perm (main ++ last ++ buf) ∧ Has m' (p + s.bucketStart i) (zs.map .full) ∧
        (lastLevel = true ∨ s.bucketStart (i + 1) - s.bucketStart i ≤ 2 * cfg.kBaseCaseSize →
          StrictWeak comp → Sorted comp zs) ∧
        s' = { s with data := { s.data with buffers := s.data.buffers.resetBuffer B i } } ∧
        s'.data.buffers.Holds init B m' i ([] : List α) ∧
        (o = true → Ready init m' overflowBlock B) ∧ Live m' p n ∧
        Frame m m' (bucketSpace B n p s.bucketStart i ∪ overflowSpace B o ∪ seg
          (Buffers.data B i) B) := by
  have hsize := h.size
  have hn := h.le_n
  have halign := le_alignToNextBlock hB (s.bucketStart (i + 1))
  have hspace : bucketSpace B n p s.bucketStart i ⊆ seg p n := seg_subset (by omega)
  have hbucket : seg (p + s.bucketStart i) (s.bucketStart (i + 1) - s.bucketStart i) ⊆
      bucketSpace B n p s.bucketStart i := seg_mono (by omega)
  rw [writeBucket, sat_bind]
  refine (sat_frame (sat_writeHead hB hp h ho)).mono (Set.union_subset (hspace.trans ?_) ?_) ?_
  · exact Set.subset_union_left.trans Set.subset_union_left
  · exact fun l hl => .inl (.inr hl.2)
  rintro r m₁ ⟨⟨front, l₁, back, l₂, hhead, rfl, hperm, hready⟩, hframe₁⟩
  have hsize' := hhead.filled.size
  rw [List.length_map, List.length_map] at hsize'
  rw [sat_bind]
  refine (hhead.sat_writeBuffer hp hn).mono (Set.union_subset_union_left _ Set.subset_union_left) ?_
  rintro b' m₂ ⟨hb', rfl, hhas, hlive, hframe₂⟩
  set zs := front ++ (l₁ ++ (back ++ l₂)) with hzs
  have hlen : zs.length = s.bucketStart (i + 1) - s.bucketStart i := by
    simp only [hzs, List.length_append]
    omega
  have hzperm : zs.Perm (main ++ last ++ (l₁ ++ l₂)) := perm_filled hperm l₁ l₂
  have hframe : Frame m m₂ (bucketSpace B n p s.bucketStart i ∪ overflowSpace B o ∪ seg
      (Buffers.data B i) B) := by
    refine (hframe₁.mono Set.subset_union_left).trans
      (hframe₂.mono (Set.union_subset_union_left _ ?_))
    exact hbucket.trans Set.subset_union_left
  have hready₂ : o = true → Ready init m₂ overflowBlock B := fun ho => by
    refine hframe₂.ready (hready ho) fun x _ hmem => ?_
    rcases hmem with hmem | hmem
    · exact notMem_seg_of_arr (by simp [overflowBlock, hp]) hmem
    · exact notMem_seg_of_arr (by simp [overflowBlock, Buffers.data]) hmem
  split
  · next hsorts =>
    rw [sat_bind, ← hlen]
    refine (sat_frame (sat_baseCaseSort comp hhas)).mono ?_ ?_
    · rw [hlen]
      exact (hbucket.trans hspace).trans (Set.subset_union_left.trans Set.subset_union_left)
    rintro _ m₃ ⟨hhas₃, hframe₃⟩
    have hlen₃ : (insertionSorted comp zs).length = zs.length :=
      (insertionSorted_perm comp zs).length_eq
    refine ⟨_, (insertionSorted_perm comp zs).trans hzperm, hhas₃,
      fun _ hc => insertionSorted_sorted hc zs, rfl, ?_, fun ho => ?_, ?_, ?_⟩
    · exact hb'.frame rfl rfl hframe₃ fun x _ => notMem_seg_of_arr (by simp [Buffers.data, hp])
    · exact hframe₃.ready (hready₂ ho) fun x _ => notMem_seg_of_arr (by simp [overflowBlock, hp])
    · exact live_of_frame hlive hhas₃ (by rwa [hlen₃])
    · rw [hlen] at hframe₃
      exact hframe.trans (hframe₃.mono
        (hbucket.trans (Set.subset_union_left.trans Set.subset_union_left)))
  · next hno =>
    exact ⟨zs, hzperm, hhas, fun hsorts => absurd hsorts hno, rfl, hb', hready₂, hlive, hframe⟩

end

/-! ### All buckets -/

/-- The margins of the buckets before `i` have been filled, and those of the others have not. -/
structure Filling (init : Bool) (B n nb kMaxBuckets : ℕ) (p : Ptr Area) (s₀ : Sorter α)
    (blocks : ℕ → ℕ) (o : ℕ → Bool) (main last buf : ℕ → List α) (i : ℕ) (s : Sorter α)
    (m : Mem Area (Slot α)) (zs : ℕ → List α) : Prop where
  same : s = { s₀ with data := { s₀.data with buffers := s.data.buffers } }
  parts : ∀ b, i ≤ b → b < nb → Parts init B n p s m b (blocks b) (o b) (main b) (last b) (buf b)
  done : ∀ b < i, (zs b).length = s₀.bucketStart (b + 1) - s₀.bucketStart b ∧
    (zs b).Perm (main b ++ last b ++ buf b) ∧ Has m (p + s₀.bucketStart b) ((zs b).map .full)
  empty : ∀ b < kMaxBuckets, b < i ∨ nb ≤ b → s.data.buffers.Holds init B m b ([] : List α)
  spare : (∀ b, i ≤ b → b < nb → o b = false) → Ready init m overflowBlock B
  live : Live m p n

section
variable {init : Bool} {B n nb kMaxBuckets i : ℕ} {p : Ptr Area} {s₀ s : Sorter α}
  {m : Mem Area (Slot α)} {o : ℕ → Bool} {blocks : ℕ → ℕ} {main last buf zs : ℕ → List α}

/-- What the other buckets use is left alone when a bucket is filled. -/
theorem notMem_filled {bss : ℕ → ℕ} {o : Bool} {x : ℕ} (hp : p.arr = .input)
    (hx : x < bss i ∨ alignToNextBlock B (bss (i + 1)) ≤ x) :
    .elem (p + x) ∉ bucketSpace B n p bss i ∪ overflowSpace B o ∪ seg (Buffers.data B i) B := by
  rintro ((hmem | hmem) | hmem)
  · simp only [bucketSpace, elem_mem_seg, Ptr.add_off, Ptr.add_arr, true_and] at hmem
    omega
  · exact notMem_seg_of_arr (by simp [overflowBlock, hp]) hmem.2
  · exact notMem_seg_of_arr (by simp [Buffers.data, hp]) hmem

/-- So is a buffer of another bucket. -/
theorem data_notMem_filled {bss : ℕ → ℕ} {o : Bool} {b x : ℕ} (hp : p.arr = .input) (hb : b ≠ i)
    (hx : x < B) :
    .elem (Buffers.data B b + x) ∉ bucketSpace B n p bss i ∪ overflowSpace B o ∪
      seg (Buffers.data B i) B := by
  rintro ((hmem | hmem) | hmem)
  · exact notMem_seg_of_arr (by simp [Buffers.data, hp]) hmem
  · exact notMem_seg_of_arr (by simp [overflowBlock, Buffers.data]) hmem.2
  · exact Buffers.data_notMem hb hx hmem

/-- So is the overflow block of another bucket. -/
theorem overflow_notMem_filled {bss : ℕ → ℕ} {o : Bool} {x : ℕ} (hp : p.arr = .input)
    (ho : o = false) :
    .elem (overflowBlock + x) ∉ bucketSpace B n p bss i ∪ overflowSpace B o ∪
      seg (Buffers.data B i) B := by
  rintro ((hmem | hmem) | hmem)
  · exact notMem_seg_of_arr (by simp [overflowBlock, hp]) hmem
  · simp [overflowSpace, ho] at hmem
  · exact notMem_seg_of_arr (by simp [overflowBlock, Buffers.data]) hmem

/-- What is in the block of the overflow bucket, or that its bucket has none, does not depend on the
bucket. -/
theorem Parts.frame (h : Parts init B n p s m i (blocks i) (o i) (main i) (last i) (buf i))
    (hB : 1 ≤ B) (hp : p.arr = .input) {m' : Mem Area (Slot α)} {c : ℕ} (hci : c < i)
    (hmono : s.bucketStart (c + 1) ≤ s.bucketStart i) (hone : o i = true → o c = false)
    (hlive : Live m' p n)
    (hf : Frame m m' (bucketSpace B n p s.bucketStart c ∪ overflowSpace B (o c) ∪
    seg (Buffers.data B c) B)) :
    Parts init B n p { s with data := { s.data with buffers := s.data.buffers.resetBuffer B c } }
      m' i (blocks i) (o i) (main i) (last i) (buf i) where
  w := h.w
  size := h.size
  le_n := h.le_n
  lazy := h.lazy
  buffer := h.buffer.frame (Function.update_of_ne hci.ne' ..) rfl hf fun _ =>
    data_notMem_filled hp hci.ne'
  hasMain := hf.has h.hasMain fun x _ => by
    rw [Ptr.add_assoc]
    exact notMem_filled hp (.inr ((alignToNextBlock_mono hB hmono).trans (Nat.le_add_right _ _)))
  live := hlive
  noOverflow := h.noOverflow
  overflow ho := by
    obtain ⟨h₁, h₂, h₃, hover⟩ := h.overflow ho
    exact ⟨h₁, h₂, h₃, hf.has hover fun x _ => overflow_notMem_filled hp (hone ho)⟩

variable (h : Boundaries false nb n s₀.bucketStart) (hB : 1 ≤ B) (hp : p.arr = .input)
  {overflowBucket : Option ℕ}
  (ho : ∀ b < nb, o b = true ↔ some b = overflowBucket ∧ s₀.overflow = true)
include h hB hp ho

/-- **One bucket after the other** is filled. -/
theorem Filling.sat_step {comp : α → α → Bool} {cfg : Config} {lastLevel : Bool} (hi : i < nb)
    (hnb : nb ≤ kMaxBuckets)
    (hs : Filling init B n nb kMaxBuckets p s₀ blocks o main last buf i s m zs) :
    Sat (slots Area α init) (seg p n ∪ seg overflowBlock B ∪ bufferSpace kMaxBuckets B)
      (writeBucket comp cfg init B p lastLevel overflowBucket none 0 s i) m fun s' m' => ∃ z,
      Filling init B n nb kMaxBuckets p s₀ blocks o main last buf (i + 1) s' m'
        (Function.update zs i z) ∧
      (lastLevel = true ∨ s₀.bucketStart (i + 1) - s₀.bucketStart i ≤ 2 * cfg.kBaseCaseSize →
        StrictWeak comp → Sorted comp z) := by
  have hstart : s.bucketStart = s₀.bucketStart := (congrArg Sorter.bucketStart hs.same :)
  have hover : s.overflow = s₀.overflow := (congrArg Sorter.overflow hs.same :)
  have hpart := hs.parts i le_rfl hi
  have hone : ∀ b, b ≠ i → b < nb → o b = true → o i = false := by
    intro b hbi hb hob
    rw [← Bool.not_eq_true]
    intro hoi
    have h₁ := ((ho b hb).mp hob).1
    rw [← ((ho i hi).mp hoi).1] at h₁
    exact hbi (Option.some.inj h₁)
  refine (sat_writeBucket hB hp hpart (by rw [ho i hi, hover])).mono
    (Set.union_subset_union_right _ (data_subset (hi.trans_le hnb))) ?_
  rintro s' m' ⟨z, hz, hhas, hsorted, rfl, hholds, hready, hlive, hframe⟩
  rw [hstart] at hhas hsorted
  have hsize := hpart.size
  have hlen : z.length = s₀.bucketStart (i + 1) - s₀.bucketStart i := by
    rw [← hstart, hz.length_eq, List.length_append, List.length_append]
    cases hoi : o i with
    | true =>
      obtain ⟨h₁, h₂, -⟩ := hpart.overflow hoi
      omega
    | false =>
      obtain ⟨h₁, h₂, -⟩ := hpart.noOverflow hoi
      rw [h₁, List.length_nil]
      omega
  refine ⟨z, ⟨?_, fun b hb hbn => ?_, fun b hb => ?_,
    fun b hb hb' => ?_, fun hno => ?_, hlive⟩, hsorted⟩
  · rw [hs.same]
  · refine (hs.parts b (by omega) hbn).frame hB hp hb ?_ (hone b (by omega) hbn) hlive hframe
    rw [hstart]
    exact h.mono hb hbn.le
  · rcases Nat.lt_succ_iff_lt_or_eq.mp hb with hlt | rfl
    · obtain ⟨hlen', hperm, hhas'⟩ := hs.done b hlt
      rw [Function.update_of_ne hlt.ne]
      refine ⟨hlen', hperm, hframe.has hhas' fun x hx => ?_⟩
      have := h.mono (show b + 1 ≤ i from hlt) hi.le
      rw [Ptr.add_assoc]
      exact notMem_filled hp (.inl (by rw [hstart]; omega))
    · rw [Function.update_self]
      exact ⟨hlen, hz, hhas⟩
  · rcases eq_or_ne b i with rfl | hbi
    · exact hholds
    · exact (hs.empty b hb (by omega)).frame (Function.update_of_ne hbi ..) rfl hframe
        fun _ => data_notMem_filled hp hbi
  · cases hoi : o i with
    | true => exact hready hoi
    | false =>
      refine hframe.ready (hs.spare fun b hb hbn => ?_) fun x _ => overflow_notMem_filled hp hoi
      rcases Nat.eq_or_lt_of_le hb with rfl | hlt
      · exact hoi
      · exact hno b hlt hbn

/-- **Filling the margins** of all buckets: each of them has its elements then, and the buffers and
the overflow block are empty; and it is sorted, if it is small or there is no further level. -/
theorem sat_writeMargins {comp : α → α → Bool} {cfg : Config} (hnb : nb ≤ kMaxBuckets)
    (hs : Filling init B n nb kMaxBuckets p s₀ blocks o main last buf 0 s₀ m zs) :
    Sat (slots Area α init) (seg p n ∪ seg overflowBlock B ∪ bufferSpace kMaxBuckets B)
      (writeMargins comp cfg init B p n 0 nb overflowBucket none 0 s₀) m fun s' m' => ∃ zs',
      Filling init B n nb kMaxBuckets p s₀ blocks o main last buf nb s' m' zs' ∧
      ∀ b < nb, n ≤ cfg.kSingleLevelThreshold ∨
        s₀.bucketStart (b + 1) - s₀.bucketStart b ≤ 2 * cfg.kBaseCaseSize →
        StrictWeak comp → Sorted comp (zs' b) := by
  rw [writeMargins, Nat.sub_zero]
  refine sat_loop (fun i s m => ∃ zs, Filling init B n nb kMaxBuckets p s₀ blocks o main
    last buf i s m zs ∧ ∀ b < i, n ≤ cfg.kSingleLevelThreshold ∨
      s₀.bucketStart (b + 1) - s₀.bucketStart b ≤ 2 * cfg.kBaseCaseSize →
      StrictWeak comp → Sorted comp (zs b)) ⟨zs, hs, by simp⟩ ?_
  rintro i hi s m ⟨zs, hs, hsorted⟩
  rw [Nat.zero_add]
  refine (hs.sat_step h hB hp ho hi hnb).imp ?_
  rintro s' m' ⟨z, hs', hz⟩
  refine ⟨_, hs', fun b hb hsorts hc => ?_⟩
  rcases Nat.lt_succ_iff_lt_or_eq.mp hb with hlt | rfl
  · rw [Function.update_of_ne hlt.ne]
    exact hsorted b hlt hsorts hc
  · rw [Function.update_self]
    exact hz (hsorts.imp_left decide_eq_true) hc

end

end Ps4o.InPlace
