import Mathlib.Algebra.Order.BigOperators.Group.List
import Ps4o.Program.Team
import Ps4o.SharedBuckets

/-!
# Finishing buckets together

What the threads do to the elements after distributing, when moving an element is copying it. A
bucket that is not an equality bucket is the business of the thread that sorts it; an element of an
equality bucket may be copied by several threads, at once even, but all of them copy the same.

## What is proved

* `sortAndMove_unique` — no two threads sort one bucket.
* `sat_finishThread_copies` — a thread sorts its buckets, and copies elements of equality buckets,
  whatever the others copy meanwhile.
* `finish_cooperate` — all threads together finish every bucket that is small, or on the last level,
  or an equality bucket, and leave the others where they are.
-/

namespace Ps4o

open Ps4o.Program Ps4o.Storage Ps4o.Order Ps4o.Order.Stripes

variable {A α : Type}

/-! ### Whose business a bucket is -/

section
variable {eq : Bool} {nb n t : ℕ} {bss : ℕ → ℕ} (h : Boundaries eq nb n bss) (ht : 1 ≤ t)
include h ht

/-- **No two threads sort one bucket**, if there is anything in it. -/
theorem sortAndMove_unique {c i j : ℕ} (hc : c < nb) (hne : ¬ (eq = true ∧ IsEqual nb c))
    (hpos : bss c < bss (c + 1)) (hi : PostOp.sortAndMove c ∈ threadOps eq nb n t bss i)
    (hj : PostOp.sortAndMove c ∈ threadOps eq nb n t bss j) : i = j := by
  cases eq with
  | false =>
    have hmem : ∀ i, PostOp.sortAndMove c ∈ threadOps false nb n t bss i → owner nb t c = i := by
      intro i hi
      obtain ⟨k, hk, heq⟩ := mem_singles hi
      obtain rfl := PostOp.sortAndMove.inj heq
      exact (mem_iff ht hc).mp ⟨Nat.le_add_right _ _, by omega⟩
    exact (hmem i hi).symm.trans (hmem j hj)
  | true =>
    have hn : bss c < n := by
      have := h.mono (Nat.succ_le_of_lt hc) le_rfl
      rw [h.last, Nat.succ_eq_add_one] at this
      omega
    have hmem : ∀ i, PostOp.sortAndMove c ∈ threadOps true nb n t bss i →
        owner n t (bss c) = i := by
      intro i hi
      have hcount : 0 < (threadOps true nb n t bss i).count (.sortAndMove c) :=
        List.count_pos_iff.mpr hi
      rw [threadOps, if_pos rfl, count_equalBranch h ht hc (fun he => hne ⟨rfl, he⟩) hpos] at hcount
      split_ifs at hcount with hin
      · exact (mem_iff ht hn).mp hin
      · exact absurd hcount (lt_irrefl 0)
    exact (hmem i hi).symm.trans (hmem j hj)

/-- Some thread does. -/
theorem exists_sortAndMove {c : ℕ} (hc : c < nb) (hne : ¬ (eq = true ∧ IsEqual nb c))
    (hpos : bss c < bss (c + 1)) : ∃ i < t, PostOp.sortAndMove c ∈ threadOps eq nb n t bss i := by
  have hmem : PostOp.sortAndMove c ∈ postOps eq nb n t bss := by
    refine List.count_pos_iff.mp ?_
    rw [count_sortAndMove h ht hc hne hpos]
    exact Nat.one_pos
  obtain ⟨i, hi, hop⟩ := List.mem_flatMap.mp hmem
  exact ⟨i, List.mem_range.mp hi, hop⟩

/-- A thread sorts a bucket once, if there is anything in it. -/
theorem sortAndMove_once {c i : ℕ} (hc : c < nb) (hne : ¬ (eq = true ∧ IsEqual nb c))
    (hpos : bss c < bss (c + 1)) {pre suf : List PostOp}
    (hops : threadOps eq nb n t bss i = pre ++ .sortAndMove c :: suf) (hi : i < t) :
    PostOp.sortAndMove c ∉ pre := by
  intro hpre
  have hone := count_sortAndMove h ht hc hne hpos
  rw [postOps, List.count_flatMap] at hone
  have hle : (threadOps eq nb n t bss i).count (.sortAndMove c) ≤ 1 := by
    rw [← hone]
    exact List.single_le_sum (fun _ _ => Nat.zero_le _) _
      (List.mem_map.mpr ⟨i, List.mem_range.mpr hi, rfl⟩)
  have := List.count_pos_iff.mpr hpre
  rw [hops, List.count_append, List.count_cons_self] at hle
  omega

end

/-! ### What a thread does, and what it relies on -/

section
variable (eq : Bool) (nb n t : ℕ) (bss : ℕ → ℕ)

/-- Position `x` lies in an equality bucket. -/
def InEqual (x : ℕ) : Prop := ∃ e, (eq = true ∧ IsEqual nb e) ∧ bss e ≤ x ∧ x < bss (e + 1)

/-- Position `x` lies in a bucket that thread `i` sorts. -/
def InOwn (i x : ℕ) : Prop :=
  ∃ c < nb, ¬ (eq = true ∧ IsEqual nb c) ∧ PostOp.sortAndMove c ∈ threadOps eq nb n t bss i ∧
  bss c ≤ x ∧ x < bss (c + 1)

/-- The slots of the buckets that thread `i` sorts, in both arrays. -/
def ownRegion (p tmp : Ptr A) (i : ℕ) : Set (Loc A) :=
  {l | ∃ x, InOwn eq nb n t bss i x ∧ (l = .elem (p + x) ∨ l = .elem (tmp + x))}

/-- Elements of equality buckets may have been copied to the array that begins at `p`. -/
def Copied (p : Ptr A) (v : ℕ → α) (m m' : Mem A α) : Prop :=
  ∀ x, InEqual eq nb bss x → m'.slot (p + x) = m.slot (p + x) ∨ m'.slot (p + x) = v x

/-- Nothing changes outside `K`, but elements of equality buckets are copied. -/
def Puts (p : Ptr A) (v : ℕ → α) (K : Set (Loc A)) (m m' : Mem A α) : Prop :=
  (∀ l ∉ K, (∀ x, InEqual eq nb bss x → l ≠ .elem (p + x)) → m.Agree m' l) ∧
  Copied eq nb bss p v m m'

/-- What is in the region `K`, and in the equality buckets, stays; but elements of equality buckets
are copied. -/
def Keeps (p tmp : Ptr A) (v : ℕ → α) (K : Set (Loc A)) (m m' : Mem A α) : Prop :=
  (∀ l ∈ K, m.Agree m' l) ∧ (∀ x, InEqual eq nb bss x → m'.slot (tmp + x) = m.slot (tmp + x)) ∧
    Copied eq nb bss p v m m'

variable {eq nb n t bss} {p tmp : Ptr A} {v : ℕ → α} {K : Set (Loc A)} {m m₁ m₂ m₃ : Mem A α}

theorem Copied.refl (m : Mem A α) : Copied eq nb bss p v m m := fun _ _ => .inl rfl

theorem Copied.trans (h₁ : Copied eq nb bss p v m₁ m₂) (h₂ : Copied eq nb bss p v m₂ m₃) :
    Copied eq nb bss p v m₁ m₃ := by
  intro x hx
  rcases h₂ x hx with h | h
  · rw [h]
    exact h₁ x hx
  · exact .inr h

theorem Keeps.refl (m : Mem A α) : Keeps eq nb bss p tmp v K m m :=
  ⟨fun l _ => by cases l <;> rfl, fun _ _ => rfl, .refl m⟩

theorem Keeps.trans [DecidableEq A] (h₁ : Keeps eq nb bss p tmp v K m₁ m₂)
    (h₂ : Keeps eq nb bss p tmp v K m₂ m₃) : Keeps eq nb bss p tmp v K m₁ m₃ :=
  ⟨fun l hl => (copies A α).agree_trans (h₁.1 l hl) (h₂.1 l hl),
    fun x hx => (h₂.2.1 x hx).trans (h₁.2.1 x hx), h₁.2.2.trans h₂.2.2⟩

theorem InEqual.lt (h : Boundaries eq nb n bss) {x : ℕ} (hx : InEqual eq nb bss x) : x < n := by
  obtain ⟨e, he, -, hx⟩ := hx
  exact hx.trans_le (h.end_le he.2.lt)

theorem InOwn.lt (h : Boundaries eq nb n bss) {i x : ℕ} (hx : InOwn eq nb n t bss i x) : x < n := by
  obtain ⟨c, hc, -, -, -, hx⟩ := hx
  exact hx.trans_le (h.end_le hc)

theorem InOwn.not_inEqual (h : Boundaries eq nb n bss) {i x : ℕ} (hx : InOwn eq nb n t bss i x) :
    ¬ InEqual eq nb bss x := by
  obtain ⟨c, hc, hne, -, hx₁, hx₂⟩ := hx
  rintro ⟨e, he, hx₃, hx₄⟩
  exact hne (h.eq_of_mem he.2.lt hc hx₃ hx₄ hx₁ hx₂ ▸ he)

theorem InOwn.unique (h : Boundaries eq nb n bss) (ht : 1 ≤ t) {i j x : ℕ}
    (hi : InOwn eq nb n t bss i x) (hj : InOwn eq nb n t bss j x) : i = j := by
  obtain ⟨c, hc, hne, hop, hx₁, hx₂⟩ := hi
  obtain ⟨d, hd, -, hop', hx₃, hx₄⟩ := hj
  obtain rfl := h.eq_of_mem hc hd hx₁ hx₂ hx₃ hx₄
  exact sortAndMove_unique h ht hc hne (hx₁.trans_lt hx₂) hop hop'

theorem ptr_add_ne (harr : p.arr ≠ tmp.arr) (x y : ℕ) : p + x ≠ tmp + y :=
  fun hxy => harr (by simpa using congrArg Ptr.arr hxy)

/-- No element of an equality bucket is in a bucket that a thread sorts. -/
theorem notMem_ownRegion (h : Boundaries eq nb n bss) (harr : p.arr ≠ tmp.arr) {i x : ℕ}
    (hx : InEqual eq nb bss x) :
    .elem (p + x) ∉ ownRegion eq nb n t bss p tmp i ∧
    .elem (tmp + x) ∉ ownRegion eq nb n t bss p tmp i := by
  constructor
  · rintro ⟨y, hy, hl | hl⟩
    · obtain rfl : x = y := by simpa using hl
      exact hy.not_inEqual h hx
    · exact ptr_add_ne harr x y (Loc.elem.inj hl)
  · rintro ⟨y, hy, hl | hl⟩
    · exact ptr_add_ne harr y x (Loc.elem.inj hl).symm
    · obtain rfl : x = y := by simpa using hl
      exact hy.not_inEqual h hx

theorem ownRegion_subset (h : Boundaries eq nb n bss) (i : ℕ) :
    ownRegion eq nb n t bss p tmp i ⊆ seg p n ∪ seg tmp n := by
  rintro l ⟨x, hx, rfl | rfl⟩
  · exact .inl (elem_add_mem_seg.mpr (hx.lt h))
  · exact .inr (elem_add_mem_seg.mpr (hx.lt h))

variable [DecidableEq A]

/-- **What threads do, and what they rely on.** -/
theorem finish_compatible (h : Boundaries eq nb n bss) (ht : 1 ≤ t) (harr : p.arr ≠ tmp.arr)
    (v : ℕ → α) : Pool.Compatible
      (fun (i : Fin t) (o : Cmd A α) m m' =>
        o.foot ⊆ seg p n ∪ seg tmp n ∧ Puts eq nb bss p v (ownRegion eq nb n t bss p tmp i) m m')
      fun i => Keeps eq nb bss p tmp v (ownRegion eq nb n t bss p tmp i) where
  refl _ := Keeps.refl
  trans _ := Keeps.trans
  others i j hji := by
    rintro o m m' ⟨-, hframe, hcopied⟩
    refine ⟨?_, fun x hx => (hframe (.elem (tmp + x)) (notMem_ownRegion h harr hx).2 ?_).symm,
      hcopied⟩
    · rintro l ⟨x, hx, hl⟩
      have hne : ∀ y, InEqual eq nb bss y → l ≠ .elem (p + y) := fun y hy heq =>
        (notMem_ownRegion (t := t) (i := i) h harr hy).1 (heq ▸ ⟨x, hx, hl⟩)
      refine hframe l ?_ hne
      rintro ⟨y, hy, hl'⟩
      suffices hxy : x = y from hji (Fin.ext (hy.unique h ht (hxy ▸ hx)))
      rcases hl with rfl | rfl <;> rcases hl' with hl' | hl'
      · simpa using hl'
      · exact absurd (Loc.elem.inj hl') (ptr_add_ne harr x y)
      · exact absurd (Loc.elem.inj hl').symm (ptr_add_ne harr y x)
      · simpa using hl'
    · exact fun y _ heq => ptr_add_ne harr y x (Loc.elem.inj heq).symm

/-! ### Copying -/

/-- What copying elements of equality buckets does. -/
abbrev Duplicates (eq : Bool) (nb n : ℕ) (bss : ℕ → ℕ) (p tmp : Ptr A) (v : ℕ → α) (o : Cmd A α)
    (m m' : Mem A α) : Prop :=
  o.foot ⊆ seg p n ∪ seg tmp n ∧ Puts eq nb bss p v ∅ m m'

omit [DecidableEq A] in
theorem puts_refl (m : Mem A α) : Puts eq nb bss p v K m m :=
  ⟨fun l _ _ => by cases l <;> rfl, .refl m⟩

/-- Writing the element where it belongs. -/
theorem puts_set {x : ℕ} (hx : InEqual eq nb bss x) :
    Puts eq nb bss p v K m (m.set (p + x) (v x)) := by
  refine ⟨fun l _ hl => ?_, fun y _ => ?_⟩
  · cases l with
    | elem q => exact (Function.update_of_ne (fun hq => hl x hx (congrArg Loc.elem hq)) _ _).symm
    | byte b => rfl
  · rw [Mem.set_slot, Function.update_apply]
    split_ifs with hy
    · rw [(Ptr.add_inj p).mp hy]
      exact .inr rfl
    · exact .inl rfl

variable (eq nb bss p tmp v) in
/-- Elements of equality buckets are where they have been distributed to, and of `k` of them from
position `lo` on the first `i` have been copied. -/
def CopiedUpTo (lo k i : ℕ) (m : Mem A α) : Prop :=
  (∀ x, InEqual eq nb bss x → m.slot (tmp + x) = v x) ∧ ∀ j < k, j < i →
  m.slot (p + (lo + j)) = v (lo + j)

section
variable {lo k i : ℕ} (hin : ∀ j < k, InEqual eq nb bss (lo + j))
include hin

omit [DecidableEq A] in
theorem CopiedUpTo.keeps (hm : CopiedUpTo eq nb bss p tmp v lo k i m₁)
    (hk : Keeps eq nb bss p tmp v K m₁ m₂) : CopiedUpTo eq nb bss p tmp v lo k i m₂ :=
  ⟨fun x hx => (hk.2.1 x hx).trans (hm.1 x hx),
    fun j hj hji => (hk.2.2 _ (hin j hj)).elim (·.trans (hm.2 j hj hji)) id⟩

omit hin in
/-- The next one is copied. -/
theorem CopiedUpTo.set (harr : p.arr ≠ tmp.arr) (hm : CopiedUpTo eq nb bss p tmp v lo k i m) :
    CopiedUpTo eq nb bss p tmp v lo k (i + 1) (m.set (p + (lo + i)) (v (lo + i))) := by
  refine ⟨fun x hx => ?_, fun j hj hji => ?_⟩
  · rw [Mem.set_slot, Function.update_of_ne (ptr_add_ne harr _ _).symm]
    exact hm.1 x hx
  · rw [Mem.set_slot, Function.update_apply]
    split_ifs with hij
    · rw [(Ptr.add_inj p).mp hij]
    · refine hm.2 j hj (Nat.lt_of_le_of_ne (Nat.lt_succ_iff.mp hji) ?_)
      rintro rfl
      exact hij rfl

variable (p tmp) in
omit [DecidableEq A] in
/-- The slots of elements that are copied lie in the range. -/
theorem copy_mem (h : Boundaries eq nb n bss) (hi : i < k) :
    .elem (tmp + lo + i) ∈ seg p n ∪ seg tmp n ∧ .elem (p + lo + i) ∈ seg p n ∪ seg tmp n := by
  have hlt := (hin i hi).lt h
  rw [Ptr.add_assoc, Ptr.add_assoc]
  exact ⟨.inr (elem_add_mem_seg.mpr hlt), .inl (elem_add_mem_seg.mpr hlt)⟩

/-- Copying elements as `transfer` does. -/
theorem safe_transfer (h : Boundaries eq nb n bss) (harr : p.arr ≠ tmp.arr)
    (hm : CopiedUpTo eq nb bss p tmp v lo k 0 m) :
    Safe (copies A α) (Duplicates eq nb n bss p tmp v) (Keeps eq nb bss p tmp v K)
      (transfer (tmp + lo) (p + lo) k) m fun _ m' => CopiedUpTo eq nb bss p tmp v lo k k m' := by
  refine safe_loop (fun i _ m' => CopiedUpTo eq nb bss p tmp v lo k i m') Keeps.refl
    (fun i _ m m' hm hk => hm.keeps hin hk) hm fun i hi _ m hm => ?_
  obtain ⟨hsrc, htarget⟩ := copy_mem p tmp hin h hi
  intro m₁ h₁ _
  have hm₁ := hm.keeps hin h₁
  have hv : m₁.slot (tmp + lo + i) = v (lo + i) := by rw [Ptr.add_assoc, hm₁.1 _ (hin i hi)]
  refine ⟨m₁.slot (tmp + lo + i), m₁, rfl, ⟨by simpa [Cmd.foot] using hsrc, puts_refl m₁⟩, ?_⟩
  intro m₂ h₂ _
  have hm₂ := hm₁.keeps hin h₂
  refine ⟨(), _, rfl, ⟨by simpa [Cmd.foot] using htarget, ?_⟩, ?_⟩
  · rw [hv, Ptr.add_assoc]
    exact puts_set (hin i hi)
  intro m₃ h₃ _
  have hm₃ : CopiedUpTo eq nb bss p tmp v lo k (i + 1) m₃ := by
    refine CopiedUpTo.keeps hin ?_ h₃
    rw [hv, Ptr.add_assoc]
    exact hm₂.set harr
  exact ⟨(), m₃, rfl, ⟨by simpa [Cmd.foot] using hsrc, puts_refl m₃⟩, fun m₄ h₄ => hm₃.keeps hin h₄⟩

/-- Copying elements as `moveAssign` does. -/
theorem safe_moveAssign (h : Boundaries eq nb n bss) (harr : p.arr ≠ tmp.arr)
    (hm : CopiedUpTo eq nb bss p tmp v lo k 0 m) :
    Safe (copies A α) (Duplicates eq nb n bss p tmp v) (Keeps eq nb bss p tmp v K)
      (moveAssign (tmp + lo) (p + lo) k) m fun _ m' => CopiedUpTo eq nb bss p tmp v lo k k m' := by
  refine Safe.bind Keeps.refl ((safe_loop
    (fun i _ m' => CopiedUpTo eq nb bss p tmp v lo k i m') Keeps.refl
    (fun i _ m m' hm hk => hm.keeps hin hk) hm fun i hi _ m hm => ?_).imp fun _ m hm => ?_)
  · obtain ⟨hsrc, htarget⟩ := copy_mem p tmp hin h hi
    intro m₁ h₁ _
    have hm₁ := hm.keeps hin h₁
    have hv : m₁.slot (tmp + lo + i) = v (lo + i) := by rw [Ptr.add_assoc, hm₁.1 _ (hin i hi)]
    refine ⟨m₁.slot (tmp + lo + i), m₁, rfl, ⟨by simpa [Cmd.foot] using hsrc, puts_refl m₁⟩, ?_⟩
    intro m₂ h₂ _
    refine ⟨(), _, rfl, ⟨by simpa [Cmd.foot] using htarget, ?_⟩,
      fun m₃ h₃ => CopiedUpTo.keeps hin ?_ h₃⟩
    · rw [hv, Ptr.add_assoc]
      exact puts_set (hin i hi)
    · rw [hv, Ptr.add_assoc]
      exact (hm₁.keeps hin h₂).set harr
  · -- destroying a copy does nothing
    refine safe_loop (fun _ _ m' => CopiedUpTo eq nb bss p tmp v lo k k m') Keeps.refl
      (fun i _ m m' hm hk => hm.keeps hin hk) hm fun i hi _ m hm m₁ h₁ _ => ?_
    obtain ⟨hsrc, -⟩ := copy_mem p tmp hin h hi
    exact ⟨(), m₁, rfl, ⟨by simpa [Cmd.foot] using hsrc, puts_refl m₁⟩,
      fun m₂ h₂ => (hm.keeps hin h₁).keeps hin h₂⟩

end

/-! ### One thread -/

/-- The elements of bucket `c`, when `v` says where they are. -/
def elemsOf (v : ℕ → α) (bss : ℕ → ℕ) (c : ℕ) : List α :=
  (List.range (bss (c + 1) - bss c)).map fun k => v (bss c + k)

@[simp] theorem length_elemsOf (v : ℕ → α) (bss : ℕ → ℕ) (c : ℕ) :
    (elemsOf v bss c).length = bss (c + 1) - bss c := by
  rw [elemsOf, List.length_map, List.length_range]

variable (comp : α → α → Bool) (cfg : Config) (lastLevel inInputArray : Bool)

variable (bss p tmp v) in
/-- A bucket is sorted, and in the physical input array, if it is small or there is no further
level; otherwise it is where it has been distributed to. -/
def Bucketed (c : ℕ) (m : Mem A α) : Prop :=
  if lastLevel = true ∨ bss (c + 1) - bss c ≤ 2 * cfg.kBaseCaseSize then
    ∃ ys : List α, ys.Perm (elemsOf v bss c) ∧ Sorted comp ys ∧
      Has m ((if inInputArray then p else tmp) + bss c) ys
  else Has m (tmp + bss c) (elemsOf v bss c)

variable (eq nb n t bss p tmp v) in
/-- After some steps of thread `i`: the buckets it has sorted, those it has yet to sort, and the
elements of equality buckets, of which those that a step transfers are in the input array, if they
were in the beginning. -/
structure FinishingCopies (i : ℕ) (pre : List PostOp) (m : Mem A α) : Prop where
  todo : ∀ c < nb, ¬ (eq = true ∧ IsEqual nb c) → .sortAndMove c ∈ threadOps eq nb n t bss i →
    .sortAndMove c ∉ pre → Has m (tmp + bss c) (elemsOf v bss c)
  finished : ∀ c < nb, ¬ (eq = true ∧ IsEqual nb c) → .sortAndMove c ∈ threadOps eq nb n t bss i →
    .sortAndMove c ∈ pre → Bucketed bss p tmp v comp cfg lastLevel inInputArray c m
  kept : ∀ x, InEqual eq nb bss x → m.slot (tmp + x) = v x
  copied : inInputArray = true → ∀ x, InEqual eq nb bss x →
    (∃ op ∈ pre, op.transfers cfg lastLevel bss x = true) → m.slot (p + x) = v x

variable {comp cfg lastLevel inInputArray}

omit [DecidableEq A] in
/-- A bucket stays what it is when its slots do. -/
theorem Bucketed.of_eq {c : ℕ} (hm : Bucketed bss p tmp v comp cfg lastLevel inInputArray c m₁)
    (heq : ∀ k < bss (c + 1) - bss c, m₁.slot (p + bss c + k) = m₂.slot (p + bss c + k) ∧
      m₁.slot (tmp + bss c + k) = m₂.slot (tmp + bss c + k)) :
    Bucketed bss p tmp v comp cfg lastLevel inInputArray c m₂ := by
  unfold Bucketed at hm ⊢
  by_cases hsmall : lastLevel = true ∨ bss (c + 1) - bss c ≤ 2 * cfg.kBaseCaseSize
  · rw [if_pos hsmall] at hm ⊢
    obtain ⟨ys, hperm, hsorted, hys⟩ := hm
    have hlen : ys.length = bss (c + 1) - bss c := hperm.length_eq.trans (length_elemsOf v bss c)
    refine ⟨ys, hperm, hsorted, hys.of_eq fun k hk => ?_⟩
    cases inInputArray with
    | true => exact (heq k (hlen ▸ hk)).1
    | false => exact (heq k (hlen ▸ hk)).2
  · rw [if_neg hsmall] at hm ⊢
    exact hm.of_eq fun k hk => (heq k (length_elemsOf v bss c ▸ hk)).2

omit [DecidableEq A] in
/-- The slots of a bucket that a thread sorts are its own. -/
theorem own_mem {i c k : ℕ} (hc : c < nb) (hne : ¬ (eq = true ∧ IsEqual nb c))
    (hop : PostOp.sortAndMove c ∈ threadOps eq nb n t bss i) (hk : k < bss (c + 1) - bss c) :
    .elem (p + bss c + k) ∈ ownRegion eq nb n t bss p tmp i ∧ .elem (tmp + bss c + k) ∈
      ownRegion eq nb n t bss p tmp i := by
  have hin : InOwn eq nb n t bss i (bss c + k) := ⟨c, hc, hne, hop, Nat.le_add_right _ _, by omega⟩
  rw [Ptr.add_assoc, Ptr.add_assoc]
  exact ⟨⟨_, hin, .inl rfl⟩, ⟨_, hin, .inr rfl⟩⟩

omit [DecidableEq A] in
/-- What other threads do does not matter. -/
theorem FinishingCopies.keeps {i : ℕ} {pre : List PostOp}
    (hI : FinishingCopies eq nb n t bss p tmp v comp cfg lastLevel inInputArray i pre m₁)
    (hk : Keeps eq nb bss p tmp v (ownRegion eq nb n t bss p tmp i) m₁ m₂) :
    FinishingCopies eq nb n t bss p tmp v comp cfg lastLevel inInputArray i pre m₂ where
  todo c hc hne hop hpre := (hI.todo c hc hne hop hpre).of_eq fun _ hk' =>
    hk.1 _ (own_mem hc hne hop (length_elemsOf v bss c ▸ hk')).2
  finished c hc hne hop hpre := (hI.finished c hc hne hop hpre).of_eq fun _ hk' =>
    ⟨hk.1 _ (own_mem hc hne hop hk').1, hk.1 _ (own_mem hc hne hop hk').2⟩
  kept x hx := (hk.2.1 x hx).trans (hI.kept x hx)
  copied hin x hx hop := (hk.2.2 x hx).elim (·.trans (hI.copied hin x hx hop)) id

/-- Copying elements of equality buckets is a step. -/
theorem FinishingCopies.copy (h : Boundaries eq nb n bss) (harr : p.arr ≠ tmp.arr)
    {i lo k : ℕ} {pre : List PostOp} {op : PostOp} {prog : Act A α Unit}
    (hI : FinishingCopies eq nb n t bss p tmp v comp cfg lastLevel inInputArray i pre m)
    (hsafe : Safe (copies A α) (Duplicates eq nb n bss p tmp v)
      (Keeps eq nb bss p tmp v (ownRegion eq nb n t bss p tmp i)) prog m fun _ m' =>
        CopiedUpTo eq nb bss p tmp v lo k k m')
    (hop : ∀ c, op ≠ .sortAndMove c)
    (hin : ∀ x, op.transfers cfg lastLevel bss x = true → lo ≤ x ∧ x < lo + k) :
    Safe (copies A α) (fun o m m' => o.foot ⊆ seg p n ∪ seg tmp n ∧
        Puts eq nb bss p v (ownRegion eq nb n t bss p tmp i) m m')
      (Keeps eq nb bss p tmp v (ownRegion eq nb n t bss p tmp i)) prog m fun _ m' =>
        FinishingCopies eq nb n t bss p tmp v comp cfg lastLevel inInputArray i
          (pre ++ [op]) m' := by
  have hmem : ∀ c, PostOp.sortAndMove c ∈ pre ++ [op] → PostOp.sortAndMove c ∈ pre := fun c hc =>
    (List.mem_append.mp hc).elim id fun hc => absurd (List.mem_singleton.mp hc).symm (hop c)
  refine (hsafe.frame Keeps.trans (fun o m m' hg => ?_) fun m m' hk => hk).mono
    (fun o m m' hg => ?_) (fun m m' hk => hk) ?_
  · obtain ⟨-, hframe, hcopied⟩ := hg
    refine ⟨fun l hl => hframe l (Set.notMem_empty l) fun x hx heq => ?_, fun x hx => ?_, hcopied⟩
    · exact (notMem_ownRegion h harr hx).1 (heq ▸ hl)
    · refine (hframe (.elem (tmp + x)) (Set.notMem_empty _) fun y _ heq => ?_).symm
      exact ptr_add_ne harr y x (Loc.elem.inj heq).symm
  · exact ⟨hg.1, fun l _ hl => hg.2.1 l (Set.notMem_empty l) hl, hg.2.2⟩
  · rintro _ m' ⟨hcopied, hk⟩
    have hI' := hI.keeps hk
    refine ⟨fun c hc hne hc' hpre => hI'.todo c hc hne hc' fun hpre' => hpre
      (List.mem_append_left _ hpre'),
      fun c hc hne hc' hpre => hI'.finished c hc hne hc' (hmem c hpre),
      hI'.kept, fun hflag x hx => ?_⟩
    rintro ⟨op', hop', htr⟩
    rcases List.mem_append.mp hop' with hop' | hop'
    · exact hI'.copied hflag x hx ⟨op', hop', htr⟩
    · obtain rfl := List.mem_singleton.mp hop'
      obtain ⟨h₁, h₂⟩ := hin x htr
      have := hcopied.2 (x - lo) (by omega) (by omega)
      rwa [Nat.add_sub_of_le h₁] at this

omit [DecidableEq A] in
/-- A position outside a bucket. -/
theorem notMem_bucketRegion (harr : p.arr ≠ tmp.arr) {off size x : ℕ}
    (hx : x < off ∨ off + size ≤ x) :
    .elem (p + x) ∉ bucketRegion p tmp off size ∧
    .elem (tmp + x) ∉ bucketRegion p tmp off size := by
  simp only [bucketRegion, Set.mem_union, elem_mem_seg, Ptr.add_arr, Ptr.add_off, harr,
    harr.symm, false_and, or_false, false_or, true_and]
  omega

/-- Sorting a bucket is a step. -/
theorem FinishingCopies.sortAndMove (hcomp : StrictWeak comp) (h : Boundaries eq nb n bss)
    (ht : 1 ≤ t) (harr : p.arr ≠ tmp.arr) {i c : ℕ} (hi : i < t) {pre suf : List PostOp}
    (hops : threadOps eq nb n t bss i = pre ++ .sortAndMove c :: suf) (hc : c < nb)
    (hne : ¬ (eq = true ∧ IsEqual nb c))
    (hI : FinishingCopies eq nb n t bss p tmp v comp cfg lastLevel inInputArray i pre m) :
    Safe (copies A α) (fun o m m' => o.foot ⊆ seg p n ∪ seg tmp n ∧
        Puts eq nb bss p v (ownRegion eq nb n t bss p tmp i) m m')
      (Keeps eq nb bss p tmp v (ownRegion eq nb n t bss p tmp i))
      (Ps4o.sortAndMove comp cfg p tmp lastLevel inInputArray bss c) m fun _ m' =>
        FinishingCopies eq nb n t bss p tmp v comp cfg lastLevel inInputArray i
          (pre ++ [.sortAndMove c]) m' := by
  have hop : PostOp.sortAndMove c ∈ threadOps eq nb n t bss i := by
    rw [hops]
    exact List.mem_append_right _ List.mem_cons_self
  set size := bss (c + 1) - bss c with hsize
  have hstep := h.step c hc
  have hlen : (elemsOf v bss c).length = size := length_elemsOf v bss c
  set R : Set (Loc A) := bucketRegion p tmp (bss c) size with hR
  have hown : R ⊆ ownRegion eq nb n t bss p tmp i := by
    rintro l (⟨k, hk, rfl⟩ | ⟨k, hk, rfl⟩)
    · exact (own_mem hc hne hop hk).1
    · exact (own_mem hc hne hop hk).2
  have hhas : Has m (tmp + bss c) (elemsOf v bss c) := by
    rcases Nat.eq_zero_or_pos size with hzero | hpos
    · rw [List.eq_nil_of_length_eq_zero (hlen.trans hzero)]
      exact has_nil
    · exact hI.todo c hc hne hop (sortAndMove_once h ht hc hne (by omega) hops hi)
  -- the program on objects that these bits stand for
  have hsat := sat_sortAndMove false cfg hcomp lastLevel inInputArray harr
    (show bss c = bss c from rfl) (show bss (c + 1) = bss c + (elemsOf v bss c).length by omega)
    ⟨has_within hhas hlen.le, raw_within (q := p + bss c)
      (show (p + bss c).arr ≠ (tmp + bss c).arr from harr) _⟩
  rw [hlen, ← hR] at hsat
  have hsafe := (sat_copies hsat rep_within).safe.mono (fun o m m' hg => hg)
    (fun m m' (hk : Keeps eq nb bss p tmp v (ownRegion eq nb n t bss p tmp i) m m') l hl =>
      hk.1 l (hown hl))
    fun b m' hb => hb
  have hout : ∀ x, InEqual eq nb bss x → .elem (p + x) ∉ R ∧ .elem (tmp + x) ∉ R := fun x hx =>
    ⟨fun hl => (notMem_ownRegion h harr hx).1 (hown hl),
      fun hl => (notMem_ownRegion h harr hx).2 (hown hl)⟩
  refine (hsafe.frame (T := Keeps eq nb bss p tmp v (ownRegion eq nb n t bss p tmp i \ R))
    Keeps.trans
    (fun o m m' hg => ?_) fun m m' hk => ⟨fun l hl => hk.1 l hl.1, hk.2⟩).mono (fun o m m' hg => ?_)
    (fun m m' hk => hk) ?_
  · exact ⟨fun l hl => hg.2 l hl.2, fun x hx => (hg.2 (.elem (tmp + x)) (hout x hx).2).symm,
      fun x hx => .inl (hg.2 (.elem (p + x)) (hout x hx).1).symm⟩
  · exact ⟨hg.1.trans (hown.trans (ownRegion_subset h i)),
      fun l hl _ => hg.2 l fun hl' => hl (hown hl'),
      fun x hx => .inl (hg.2 (.elem (p + x)) (hout x hx).1).symm⟩
  · rintro _ m' ⟨⟨m₁, ⟨ms, hms, hrep⟩, hagree⟩, hk⟩
    -- what has become of the bucket
    have hbucket : Bucketed bss p tmp v comp cfg lastLevel inInputArray c m' := by
      suffices hb : Bucketed bss p tmp v comp cfg lastLevel inInputArray c m₁ from hb.of_eq
          fun k hk' =>
        ⟨hagree (.elem (p + bss c + k)) (.inl (elem_add_mem_seg.mpr hk')),
          hagree (.elem (tmp + bss c + k)) (.inr (elem_add_mem_seg.mpr hk'))⟩
      unfold Bucketed
      by_cases hsmall : lastLevel = true ∨ size ≤ 2 * cfg.kBaseCaseSize
      · rw [if_pos hsmall] at hms ⊢
        obtain ⟨⟨ys, hperm, hsorted, hys⟩, -⟩ := hms
        exact ⟨ys, hperm, hsorted, hrep.has hys⟩
      · rw [if_neg hsmall] at hms ⊢
        rw [hms] at hrep
        exact hrep.has (has_within hhas hlen.le)
    -- other buckets are as they were
    have hother : ∀ d < nb, d ≠ c → ¬ (eq = true ∧ IsEqual nb d) → PostOp.sortAndMove d ∈
        threadOps eq nb n t bss i →
        ∀ k < bss (d + 1) - bss d, m.slot (p + bss d + k) = m'.slot (p + bss d + k) ∧
          m.slot (tmp + bss d + k) = m'.slot (tmp + bss d + k) := by
      intro d hd hdc hned hopd k hk'
      have hx : bss d + k < bss c ∨ bss c + size ≤ bss d + k := by
        by_contra hin
        exact hdc (h.eq_of_mem hd hc (Nat.le_add_right _ _) (show bss d + k < bss (d + 1) by omega)
          (by omega) (by omega))
      obtain ⟨h₁, h₂⟩ := notMem_bucketRegion harr hx
      rw [Ptr.add_assoc, Ptr.add_assoc]
      have hin : InOwn eq nb n t bss i (bss d + k) :=
        ⟨d, hd, hned, hopd, Nat.le_add_right _ _, by omega⟩
      exact ⟨hk.1 _ ⟨⟨_, hin, .inl rfl⟩, h₁⟩, hk.1 _ ⟨⟨_, hin, .inr rfl⟩, h₂⟩⟩
    refine ⟨fun d hd hned hopd hpre => ?_, fun d hd hned hopd hpre => ?_,
      fun x hx => (hk.2.1 x hx).trans (hI.kept x hx), fun hflag x hx => ?_⟩
    · have hdc : d ≠ c := fun hdc =>
        hpre (List.mem_append_right _ (List.mem_singleton.mpr (hdc ▸ rfl)))
      refine (hI.todo d hd hned hopd fun hpre' => hpre (List.mem_append_left _ hpre')).of_eq
        fun k hk' => ?_
      exact (hother d hd hdc hned hopd k (length_elemsOf v bss d ▸ hk')).2
    · rcases eq_or_ne d c with rfl | hdc
      · exact hbucket
      · refine (hI.finished d hd hned hopd ?_).of_eq (hother d hd hdc hned hopd)
        exact (List.mem_append.mp hpre).elim id fun hpre' =>
          absurd (PostOp.sortAndMove.inj (List.mem_singleton.mp hpre')) hdc
    · rintro ⟨op, hop', htr⟩
      rcases List.mem_append.mp hop' with hop' | hop'
      · exact (hk.2.2 x hx).elim (·.trans (hI.copied hflag x hx ⟨op, hop', htr⟩)) id
      · -- the bucket has no element of an equality bucket
        obtain rfl := List.mem_singleton.mp hop'
        obtain ⟨-, h₁, h₂⟩ := of_decide_eq_true htr
        exact absurd hx (InOwn.not_inEqual h ⟨c, hc, hne, hop, h₁, h₂⟩)

/-- **What a thread leaves behind**, whatever the others do meanwhile. -/
theorem safe_finishThread (hcomp : StrictWeak comp) (h : Boundaries eq nb n bss) (ht : 1 ≤ t)
    (harr : p.arr ≠ tmp.arr) (lastLevel inInputArray : Bool) (hv : ∀ x < n, m.slot (tmp + x) = v x)
    {i : ℕ} (hi : i < t) :
    Safe (copies A α) (fun o m m' => o.foot ⊆ seg p n ∪ seg tmp n ∧
        Puts eq nb bss p v (ownRegion eq nb n t bss p tmp i) m m')
      (Keeps eq nb bss p tmp v (ownRegion eq nb n t bss p tmp i))
      (finishThread comp cfg p tmp lastLevel inInputArray bss eq nb n t i) m fun _ m' =>
        FinishingCopies eq nb n t bss p tmp v comp cfg lastLevel inInputArray i
          (threadOps eq nb n t bss i) m' := by
  refine safe_foldlM
    (fun pre _ m' => FinishingCopies eq nb n t bss p tmp v comp cfg lastLevel inInputArray i pre m')
      Keeps.refl
    (fun pre _ m m' hI hk => hI.keeps hk) ?_ fun pre op suf hops _ m hI => ?_
  · refine ⟨fun c hc _ _ _ k x hx => ?_, fun _ _ _ _ hpre => absurd hpre List.not_mem_nil,
      fun x hx => hv x (hx.lt h), fun _ x _ hop => absurd hop (by simp)⟩
    have hend := h.end_le hc
    obtain ⟨hk, rfl⟩ : k < bss (c + 1) - bss c ∧ v (bss c + k) = x := by
      rw [elemsOf, List.getElem?_map] at hx
      obtain ⟨y, hy, rfl⟩ := Option.map_eq_some_iff.mp hx
      obtain ⟨hlt, rfl⟩ := List.getElem?_eq_some_iff.mp hy
      rw [List.length_range] at hlt
      exact ⟨hlt, by rw [List.getElem_range]⟩
    rw [Ptr.add_assoc]
    exact hv _ (by omega)
  · have hmem : op ∈ threadOps eq nb n t bss i := by
      rw [hops]
      exact List.mem_append_right _ List.mem_cons_self
    rcases mem_threadOps h ht hmem with ⟨c, hc, hne, rfl⟩ | ⟨e, he, rfl⟩ | ⟨e, lo,
      hi', he, rfl, hlo, hhi, -, -⟩
    · exact hI.sortAndMove hcomp h ht harr hi hops hc hne
    · -- an equality bucket that the thread has for itself
      simp only [PostOp.act, Ps4o.move]
      cases inInputArray with
      | false =>
        refine fun m' hk => ⟨fun c hc hne hop hpre => (hI.keeps hk).todo c hc hne hop fun hpre' =>
          hpre (List.mem_append_left _ hpre'), fun c hc hne hop hpre =>
            (hI.keeps hk).finished c hc hne hop ?_,
          (hI.keeps hk).kept, fun h => by cases h⟩
        exact (List.mem_append.mp hpre).elim id fun hpre' => by simp at hpre'
      | true =>
        refine hI.copy h harr (safe_transfer
          (fun j hj => ⟨e, he, Nat.le_add_right _ _, by omega⟩) h harr
          ⟨hI.kept, fun j _ hj => absurd hj (Nat.not_lt_zero j)⟩) (fun c => by simp) fun x hx => ?_
        have := of_decide_eq_true hx
        omega
    · refine hI.copy h harr (safe_moveAssign (fun j hj => ⟨e, he, by omega, by omega⟩) h harr
        ⟨hI.kept, fun j _ hj => absurd hj (Nat.not_lt_zero j)⟩) (fun c => by simp) fun x hx => ?_
      have := of_decide_eq_true hx
      omega

/-! ### All threads -/

/-- **All threads together**, whoever is first. -/
theorem finish_cooperate (hcomp : StrictWeak comp) (h : Boundaries eq nb n bss) (ht : 1 ≤ t)
    (harr : p.arr ≠ tmp.arr) (lastLevel inInputArray : Bool)
    (hv : ∀ x < n, m.slot (tmp + x) = v x) : Cooperate (copies A α) (seg p n ∪ seg tmp n)
      (fun i : Fin t => finishThread comp cfg p tmp lastLevel inInputArray bss eq nb n t i) m
        fun i _ m' =>
        FinishingCopies eq nb n t bss p tmp v comp cfg lastLevel inInputArray i
          (threadOps eq nb n t bss i) m' := by
  refine ⟨_, _, finish_compatible h ht harr v, fun i o m m' hg => ⟨hg.1, fun l hl => ?_⟩,
    fun i m m' hm => ?_,
    fun i => safe_finishThread hcomp h ht harr lastLevel inInputArray hv i.isLt⟩
  · refine hg.2.1 l (fun hl' => hl (ownRegion_subset h i hl')) fun x hx heq => hl ?_
    rw [heq]
    exact .inl (elem_add_mem_seg.mpr (hx.lt h))
  · refine ⟨fun l hl => hm l (ownRegion_subset h i hl), fun x hx => ?_, fun x hx => .inl ?_⟩
    · exact (hm (.elem (tmp + x)) (.inr (elem_add_mem_seg.mpr (hx.lt h)))).symm
    · exact (hm (.elem (p + x)) (.inl (elem_add_mem_seg.mpr (hx.lt h)))).symm

omit [DecidableEq A] in
/-- **What all threads leave behind**: the buckets that are not equality buckets, and the elements
of equality buckets, which are in the physical input array. -/
theorem finished_of_threads (h : Boundaries eq nb n bss) (ht : 1 ≤ t)
    (hI : ∀ i : Fin t, FinishingCopies eq nb n t bss p tmp v comp cfg lastLevel inInputArray i
      (threadOps eq nb n t bss i) m) :
    (∀ c < nb, ¬ (eq = true ∧ IsEqual nb c) →
      Bucketed bss p tmp v comp cfg lastLevel inInputArray c m) ∧
      ∀ x, InEqual eq nb bss x → m.slot ((if inInputArray then p else tmp) + x) = v x := by
  constructor
  · intro c hc hne
    rcases Nat.eq_or_lt_of_le (h.step c hc) with hempty | hpos
    · -- there is nothing in it
      have hnil : elemsOf v bss c = [] :=
        List.eq_nil_of_length_eq_zero (by rw [length_elemsOf]; omega)
      unfold Bucketed
      rw [hnil]
      split
      · exact ⟨[], .nil, List.Pairwise.nil, has_nil⟩
      · exact has_nil
    · obtain ⟨i, hi, hop⟩ := exists_sortAndMove h ht hc hne hpos
      exact (hI ⟨i, hi⟩).finished c hc hne hop hop
  · intro x hx
    obtain ⟨e, ⟨rfl, he⟩, hx₁, hx₂⟩ := hx
    cases inInputArray with
    | false => exact (hI ⟨0, ht⟩).kept x ⟨e, ⟨rfl, he⟩, hx₁, hx₂⟩
    | true =>
      -- some thread has copied it
      have hpos : 0 < (postOps true nb n t bss).countP (·.transfers cfg lastLevel bss x) := by
        rw [countP_postOps h ht cfg lastLevel he hx₁ hx₂]
        omega
      obtain ⟨op, hop, htr⟩ := List.countP_pos_iff.mp hpos
      obtain ⟨i, hi, hop⟩ := List.mem_flatMap.mp hop
      exact (hI ⟨i, List.mem_range.mp hi⟩).copied rfl x ⟨e, ⟨rfl, he⟩, hx₁, hx₂⟩ ⟨op, hop, htr⟩

end

end Ps4o
