import Ps4o.Partitioning
import Ps4o.Program.Pool
import Ps4o.Tasks

/-!
# Shared equality buckets

What the steps of `Ps4o.PostProcessing` do to the elements when the range that has been partitioned
was not in the input array: then the elements have been distributed to the input array, where
equality buckets should stay. Moving an element leaves its place empty.

## What is proved

* `sat_finishThread` — a thread leaves every element of an equality bucket in its stripe where it
  is, but for those that it shares.
* `equalBucketsStay_iff` — so all elements of equality buckets stay where they are just when every
  one of these buckets lies strictly inside a stripe.
-/

namespace Ps4o

open Ps4o.Program Ps4o.Storage Ps4o.Order Ps4o.Order.Stripes

variable {A α : Type}

/-! ### The code -/

section
variable (comp : α → α → Bool) (cfg : Config) (p tmp : Ptr A) (lastLevel inInputArray : Bool)
  (bss : ℕ → ℕ)

/-- What a step does. -/
def PostOp.act : PostOp → Act A α Unit
  | .sortAndMove bucket => Ps4o.sortAndMove comp cfg p tmp lastLevel inInputArray bss bucket
  | .move bucket => Ps4o.move p tmp inInputArray bss bucket
  | .share lo hi => moveAssign (tmp + lo) (p + lo) (hi - lo)

/-- What thread `myId` does with the buckets. -/
def finishThread (useEqualBuckets : Bool) (numBuckets n t myId : ℕ) : Act A α Unit :=
  (threadOps useEqualBuckets numBuckets n t bss myId).foldlM
    (fun _ op => op.act comp cfg p tmp lastLevel inInputArray bss) ()

/-- All threads do what is theirs. -/
def finishPool {σ : Type} (useEqualBuckets : Bool) (numBuckets n t : ℕ) (m : σ) :
    Pool (Cmd A α) Cmd.Ans (Fin t) Unit σ where
  prog i := finishThread comp cfg p tmp lastLevel inInputArray bss useEqualBuckets numBuckets n t i
  mem := m

end

/-! ### One step -/

section
variable [DecidableEq A] {m : Mem A (Slot α)}

theorem sat_moveAssign {src target : Ptr A} {n : ℕ} (harr : src.arr ≠ target.arr)
    (hm : ∀ i < n, ∃ v, m.slot (src + i) = .full v) :
    Sat (slots A α true) (seg src n ∪ seg target n) (moveAssign src target n) m
      fun _ m' => Raw m' src n := by
  have hne : ∀ i j : ℕ, src + i ≠ target + j :=
    fun i j h => harr (by simpa using congrArg Ptr.arr h)
  rw [moveAssign, sat_bind]
  refine (sat_loop (fun k _ m' => ∀ i < n, if i < k then m'.slot (src + i) = .moved
    else ∃ v, m'.slot (src + i) = .full v)
    (fun i hi => ?_) fun k hk _ m' hI => ?_).imp fun _ m' hI => ?_
  · rw [if_neg (Nat.not_lt_zero i)]
    exact hm i hi
  · have hfull := hI k hk
    rw [if_neg (lt_irrefl k)] at hfull
    obtain ⟨v, hv⟩ := hfull
    rw [sat_bind]
    refine sat_moveFrom (.inl (elem_add_mem_seg.mpr hk)) hv ?_
    refine sat_assignTo (.inr (elem_add_mem_seg.mpr hk)) (fun _ => rfl) fun i hi => ?_
    simp only [Mem.set_slot, Function.update_apply, Ptr.add_inj, hne, if_false]
    rcases Nat.lt_trichotomy i k with hlt | rfl | hlt
    · have := hI i hi
      rw [if_pos hlt] at this
      rw [if_pos (by omega), if_neg (by omega), this]
    · rw [if_pos (by omega), if_pos rfl]
    · have := hI i hi
      rw [if_neg (by omega)] at this
      rwa [if_neg (by omega), if_neg (by omega)]
  · refine (sat_loop (fun k _ m' => ∀ i < n, m'.slot (src + i) = if i < k then .raw else .moved)
      (fun i hi => ?_) fun k hk _ m' hI => ?_).imp fun _ m' hI i hi => ?_
    · rw [if_neg (Nat.not_lt_zero i)]
      exact (if_pos hi ▸ hI i hi :)
    · refine sat_destroyAt (.inl (elem_add_mem_seg.mpr hk)) ?_ fun i hi => ?_
      · rw [hI k hk, if_neg (lt_irrefl k)]
        simp
      · simp only [Mem.set_slot, Function.update_apply, Ptr.add_inj, hI i hi]
        split_ifs <;> first | rfl | omega
    · rw [hI i hi, if_pos hi]

end

/-! ### One thread -/

section
variable (nb n t : ℕ) (bss : ℕ → ℕ)

/-- Position `x` is the business of thread `i`: it lies in an equality bucket and in the stripe of
the thread, or in another bucket that begins in the stripe. -/
def Owns (i x : ℕ) : Prop :=
  ∃ b < nb, bss b ≤ x ∧ x < bss (b + 1) ∧
    if IsEqual nb b then first n t i ≤ x ∧ x < first n t (i + 1)
    else first n t i ≤ bss b ∧ bss b < first n t (i + 1)

/-- The slots that are the business of thread `i`. -/
def finishRegion (p tmp : Ptr A) (i : ℕ) : Set (Loc A) :=
  {l | ∃ x, Owns nb n t bss i x ∧ (l = .elem (p + x) ∨ l = .elem (tmp + x))}

variable {nb n t bss}

/-- Every position is the business of one thread. -/
theorem Owns.unique (h : Boundaries true nb n bss) (ht : 1 ≤ t) {i j x : ℕ}
    (hi : Owns nb n t bss i x) (hj : Owns nb n t bss j x) : i = j := by
  obtain ⟨b, hb, hb₁, hb₂, hi⟩ := hi
  obtain ⟨c, hc, hc₁, hc₂, hj⟩ := hj
  obtain rfl := h.eq_of_mem hb hc hb₁ hb₂ hc₁ hc₂
  have hn : bss (b + 1) ≤ n := by
    have := h.mono (Nat.succ_le_of_lt hb) le_rfl
    rwa [h.last] at this
  split_ifs at hi hj
  · exact ((mem_iff ht (by omega)).mp hi).symm.trans ((mem_iff ht (by omega)).mp hj)
  · exact ((mem_iff ht (by omega)).mp hi).symm.trans ((mem_iff ht (by omega)).mp hj)

theorem finishRegion_disjoint (h : Boundaries true nb n bss) (ht : 1 ≤ t) {p tmp : Ptr A}
    (harr : p.arr ≠ tmp.arr) {i j : ℕ} (hij : i ≠ j) :
    ∀ l ∈ finishRegion nb n t bss p tmp i, l ∉ finishRegion nb n t bss p tmp j := by
  have hne : ∀ x y : ℕ, p + x ≠ tmp + y := fun x y hxy => harr (by simpa using congrArg Ptr.arr hxy)
  rintro l ⟨x, hx, hl⟩ ⟨y, hy, hl'⟩
  suffices hxy : x = y from hij (hx.unique h ht (hxy ▸ hy))
  rcases hl with rfl | rfl <;> rcases hl' with hl' | hl'
  · simpa using hl'
  · exact absurd (Loc.elem.inj hl') (hne x y)
  · exact absurd (Loc.elem.inj hl').symm (hne y x)
  · simpa using hl'

/-- After some steps of a thread, its elements of equality buckets are where they were, but for
those it has shared, and its other elements are there in some order. -/
def Finishing (nb n t : ℕ) (bss : ℕ → ℕ) (tmp : Ptr A) (i : ℕ) (m : Mem A (Slot α))
    (ops : List PostOp) (m' : Mem A (Slot α)) : Prop :=
  (∀ e, IsEqual nb e → ∀ x, bss e ≤ x → x < bss (e + 1) → Owns nb n t bss i x →
    m'.slot (tmp + x) = if ops.countP (·.shares x) = 0 then m.slot (tmp + x) else .raw) ∧
  ∀ c < nb, ¬ IsEqual nb c → ∀ x, bss c ≤ x → x < bss (c + 1) → Owns nb n t bss i x →
    ∃ v, m'.slot (tmp + x) = .full v

variable [DecidableEq A] {comp : α → α → Bool} {cfg : Config} {p tmp : Ptr A}
  {m m' : Mem A (Slot α)}

theorem owns_equal (h : Boundaries true nb n bss) {i e x : ℕ} (he : IsEqual nb e) (hx₁ : bss e ≤ x)
    (hx₂ : x < bss (e + 1)) : Owns nb n t bss i x ↔ first n t i ≤ x ∧ x < first n t (i + 1) := by
  constructor
  · rintro ⟨b, hb, hb₁, hb₂, hi⟩
    obtain rfl := h.eq_of_mem hb (by omega) hb₁ hb₂ hx₁ hx₂
    rwa [if_pos he] at hi
  · refine fun hi => ⟨e, by omega, hx₁, hx₂, ?_⟩
    rwa [if_pos he]

theorem owns_other (h : Boundaries true nb n bss) {i c x : ℕ} (hc : c < nb) (hne : ¬ IsEqual nb c)
    (hx₁ : bss c ≤ x) (hx₂ : x < bss (c + 1)) :
    Owns nb n t bss i x ↔ first n t i ≤ bss c ∧ bss c < first n t (i + 1) := by
  constructor
  · rintro ⟨b, hb, hb₁, hb₂, hi⟩
    obtain rfl := h.eq_of_mem hb hc hb₁ hb₂ hx₁ hx₂
    rwa [if_neg hne] at hi
  · refine fun hi => ⟨c, hc, hx₁, hx₂, ?_⟩
    rwa [if_neg hne]

/-- A bucket that a thread sorts is its own. -/
theorem owns_of_sortAndMove (h : Boundaries true nb n bss) (ht : 1 ≤ t) {i c x : ℕ}
    (hop : PostOp.sortAndMove c ∈ threadOps true nb n t bss i) (hc : c < nb) (hne : ¬ IsEqual nb c)
    (hx₁ : bss c ≤ x) (hx₂ : x < bss (c + 1)) : Owns nb n t bss i x := by
  rw [owns_other h hc hne hx₁ hx₂]
  have hpos : 0 < (threadOps true nb n t bss i).count (.sortAndMove c) := List.count_pos_iff.mpr hop
  rw [threadOps, if_pos rfl, count_equalBranch h ht hc hne (hx₁.trans_lt hx₂)] at hpos
  split_ifs at hpos with hin
  · exact hin
  · exact absurd hpos (lt_irrefl 0)

/-- Sorting a bucket of its own, a thread leaves all its other elements. -/
theorem Finishing.sortAndMove (h : Boundaries true nb n bss) (ht : 1 ≤ t) (lastLevel : Bool)
    {i c : ℕ} {ops : List PostOp} (hI : Finishing nb n t bss tmp i m ops m')
    (hop : PostOp.sortAndMove c ∈ threadOps true nb n t bss i) (hc : c < nb)
    (hne : ¬ IsEqual nb c) : Sat (slots A α true) (finishRegion nb n t bss p tmp i)
      (Ps4o.sortAndMove comp cfg p tmp lastLevel false bss c) m' fun _ m'' =>
        Finishing nb n t bss tmp i m (ops ++ [.sortAndMove c]) m'' := by
  have hcount : ∀ x, (ops ++ [PostOp.sortAndMove c]).countP (·.shares x) =
      ops.countP (·.shares x) := fun x => by
    rw [List.countP_append]
    rfl
  unfold Finishing at hI ⊢
  simp only [hcount]
  rw [Ps4o.sortAndMove]
  split
  · have hstep := h.step c hc
    have hown : ∀ k < bss (c + 1) - bss c, Owns nb n t bss i (bss c + k) := fun k hk =>
      owns_of_sortAndMove h ht hop hc hne (Nat.le_add_right _ _) (by omega)
    obtain ⟨vs, hlen, hvs⟩ := exists_has (m := m') (p := tmp + bss c) fun k hk => by
      rw [Ptr.add_assoc]
      exact hI.2 c hc hne _ (Nat.le_add_right _ _) (by omega) (hown k hk)
    rw [sat_bind, ← hlen]
    refine (sat_baseCaseSort comp hvs).frame.mono ?_ ?_
    · rintro l ⟨k, hk, rfl⟩
      rw [Ptr.add_assoc]
      exact ⟨_, hown k (by omega), .inr rfl⟩
    · rintro _ m'' ⟨hm'', hf⟩
      -- what is not in the bucket is as it was
      have hout : ∀ x, x < bss c ∨ bss (c + 1) ≤ x → m''.slot (tmp + x) = m'.slot (tmp + x) :=
          fun x hx =>
        (hf (.elem (tmp + x)) fun hl => by
          rw [elem_mem_seg] at hl
          simp only [Ptr.add_off] at hl
          omega).symm
      refine ⟨fun e he x hx₁ hx₂ hx => ?_, fun d hd hned x hx₁ hx₂ hx => ?_⟩
      · have hec : e ≠ c := fun hec => hne (hec ▸ he)
        rw [hout x, hI.1 e he x hx₁ hx₂ hx]
        by_contra hin
        exact hec (h.eq_of_mem (by omega) hc hx₁ hx₂ (by omega) (by omega))
      · rcases eq_or_ne d c with rfl | hdc
        · have hlen' : ((insertionSorted comp vs).map Slot.full).length = bss (d + 1) - bss d := by
            rw [List.length_map, (insertionSorted_perm comp vs).length_eq, hlen]
          obtain ⟨v, hv⟩ : ∃ v, ((insertionSorted comp vs).map Slot.full)[x - bss d]? = some v :=
            ⟨_, List.getElem?_eq_getElem (by omega)⟩
          have := hm'' _ v hv
          rw [Ptr.add_assoc, Nat.add_sub_of_le hx₁] at this
          obtain ⟨y, -, rfl⟩ := Option.map_eq_some_iff.mp (by rwa [List.getElem?_map] at hv)
          exact ⟨y, this⟩
        · rw [hout x]
          · exact hI.2 d hd hned x hx₁ hx₂ hx
          · by_contra hin
            exact hdc (h.eq_of_mem hd hc hx₁ hx₂ (by omega) (by omega))
  · exact hI

/-- Sharing a part of an equality bucket, a thread takes its elements away. -/
theorem Finishing.share (h : Boundaries true nb n bss) (harr : p.arr ≠ tmp.arr) {i e lo hi : ℕ}
    {ops : List PostOp} (hI : Finishing nb n t bss tmp i m ops m') (he : IsEqual nb e)
    (hlo : bss e ≤ lo) (hhi : hi ≤ bss (e + 1)) (hlo' : first n t i ≤ lo)
    (hhi' : hi ≤ first n t (i + 1)) (hfull : ∀ x < n, ∃ v, m.slot (tmp + x) = .full v)
    (honce : ∀ x, lo ≤ x → x < hi → ops.countP (·.shares x) = 0) :
    Sat (slots A α true) (finishRegion nb n t bss p tmp i)
      (moveAssign (tmp + lo) (p + lo) (hi - lo)) m' fun _ m'' =>
        Finishing nb n t bss tmp i m (ops ++ [.share lo hi]) m'' := by
  have hcount : ∀ x, (ops ++ [PostOp.share lo hi]).countP (·.shares x) =
      ops.countP (·.shares x) + if lo ≤ x ∧ x < hi then 1 else 0 := fun x => by
    simp only [List.countP_append, List.countP_singleton, PostOp.shares, decide_eq_true_eq]
  have hown : ∀ k < hi - lo, Owns nb n t bss i (lo + k) := fun k hk =>
    (owns_equal h he (by omega) (by omega)).mpr ⟨by omega, by omega⟩
  have hn := h.mono (show e + 1 ≤ nb by omega) le_rfl
  rw [h.last] at hn
  refine (sat_moveAssign (show (tmp + lo).arr ≠ (p + lo).arr from harr.symm)
    fun k hk => ?_).frame.mono ?_ ?_
  · rw [Ptr.add_assoc, hI.1 e he _ (by omega) (by omega) (hown k hk),
      if_pos (honce _ (by omega) (by omega))]
    exact hfull _ (by omega)
  · rintro l (⟨k, hk, rfl⟩ | ⟨k, hk, rfl⟩)
    · exact ⟨_, hown k hk, .inr (by rw [Ptr.add_assoc])⟩
    · exact ⟨_, hown k hk, .inl (by rw [Ptr.add_assoc])⟩
  · rintro _ m'' ⟨hraw, hf⟩
    have hout : ∀ x, x < lo ∨ hi ≤ x → m''.slot (tmp + x) = m'.slot (tmp + x) := fun x hx =>
      (hf (.elem (tmp + x)) fun hl => by
        rw [Set.mem_union, elem_mem_seg, elem_mem_seg] at hl
        simp only [Ptr.add_off, Ptr.add_arr, harr.symm, false_and, or_false] at hl
        omega).symm
    refine ⟨fun e' he' x hx₁ hx₂ hx => ?_, fun d hd hned x hx₁ hx₂ hx => ?_⟩
    · rw [hcount]
      by_cases hin : lo ≤ x ∧ x < hi
      · have := hraw (x - lo) (by omega)
        rw [Ptr.add_assoc, Nat.add_sub_of_le hin.1] at this
        rw [if_pos hin, if_neg (Nat.succ_ne_zero _), this]
      · rw [if_neg hin, Nat.add_zero, hout x (by omega), hI.1 e' he' x hx₁ hx₂ hx]
    · rw [hout x]
      · exact hI.2 d hd hned x hx₁ hx₂ hx
      · by_contra hin
        exact hned (h.eq_of_mem hd (by omega) hx₁ hx₂ (show bss e ≤ x by omega) (by omega) ▸ he)

/-- **What a thread leaves behind**: it shares no element twice, so all its steps are defined. -/
theorem sat_finishThread (h : Boundaries true nb n bss) (ht : 1 ≤ t) (harr : p.arr ≠ tmp.arr)
    (lastLevel : Bool) (hfull : ∀ x < n, ∃ v, m.slot (tmp + x) = .full v) (i : ℕ) :
    Sat (slots A α true) (finishRegion nb n t bss p tmp i)
      (finishThread comp cfg p tmp lastLevel false bss true nb n t i) m fun _ m' =>
        Finishing nb n t bss tmp i m (threadOps true nb n t bss i) m' := by
  refine sat_foldlM (fun ops _ m' => Finishing nb n t bss tmp i m ops m') ?_
    fun pre op suf hops _ m' hI => ?_
  · have hn : ∀ c < nb, bss (c + 1) ≤ n := fun c hc => by
      have := h.mono (Nat.succ_le_of_lt hc) le_rfl
      rwa [h.last] at this
    refine ⟨fun e he x _ _ _ => rfl, fun c hc _ x _ hx₂ _ => hfull x (hx₂.trans_le (hn c hc))⟩
  · have hmem : op ∈ threadOps true nb n t bss i := by
      rw [hops]
      exact List.mem_append_right _ List.mem_cons_self
    rcases mem_threadOps h ht hmem with ⟨c, hc, hne, rfl⟩ | ⟨e, he, rfl⟩ | ⟨e, lo, hi,
      he, rfl, hlo, hhi, hlo', hhi'⟩
    · exact hI.sortAndMove h ht lastLevel hmem hc fun he => hne ⟨rfl, he⟩
    · -- the elements are in the input array already
      have hcount : ∀ x, (pre ++ [PostOp.move e]).countP (·.shares x) = pre.countP (·.shares x) :=
          fun x => by
        rw [List.countP_append]
        rfl
      unfold Finishing
      simp only [hcount]
      exact hI
    · refine hI.share h harr he.2 hlo hhi hlo' hhi' hfull fun x hx₁ hx₂ => ?_
      have htotal : (threadOps true nb n t bss i).countP (·.shares x) ≤ 1 := by
        rw [threadOps, if_pos rfl, countP_shares h ht he.2 (hlo.trans hx₁) (hx₂.trans_le hhi)]
        split_ifs <;> omega
      have hthis : (PostOp.share lo hi).shares x = true := decide_eq_true ⟨hx₁, hx₂⟩
      rw [hops, List.countP_append, List.countP_cons_of_pos hthis] at htotal
      omega

/-! ### All threads -/

variable (comp cfg) in
theorem finishPool_isolated (h : Boundaries true nb n bss) (ht : 1 ≤ t) (harr : p.arr ≠ tmp.arr)
    (lastLevel : Bool) (hfull : ∀ x < n, ∃ v, m.slot (tmp + x) = .full v) :
    Pool.Isolated (slots A α true) (fun i : Fin t => finishRegion nb n t bss p tmp i)
      (fun (i : Fin t) _ m' => Finishing nb n t bss tmp i m (threadOps true nb n t bss i) m')
      (finishPool comp cfg p tmp lastLevel false bss true nb n t m) where
  disjoint _ _ hij := finishRegion_disjoint h ht harr fun heq => hij (Fin.ext heq)
  sat i := sat_finishThread h ht harr lastLevel hfull i

variable (comp cfg p tmp m) in
/-- Whatever the schedule, when all threads have finished their buckets, every element of an
equality bucket is where it was; and what is queued for later does not touch these buckets. -/
def EqualBucketsStay (lastLevel : Bool) (nb n t : ℕ) (bss : ℕ → ℕ) : Prop :=
  (∀ sched log P', Pool.run (slots A α true) sched
      (finishPool comp cfg p tmp lastLevel false bss true nb n t m) =
      some (log, P') → (∀ i, P'.Returned i) → ∀ e, IsEqual nb e → ∀ x, bss e ≤ x → x < bss (e + 1) →
        P'.mem.slot (tmp + x) = m.slot (tmp + x)) ∧
    ∀ (cfg' : Config) (stripe id offset : ℕ),
      ∀ q ∈ queueTasks cfg' stripe id t n false offset bss nb true,
      ∀ e, IsEqual nb e → ∀ x, bss e ≤ x → x < bss (e + 1) →
      ¬ (q.task.begin ≤ offset + x ∧ offset + x < q.task.stop)

/-- What is queued does not touch an equality bucket. -/
theorem queueTasks_disjoint (h : Boundaries true nb n bss) {cfg' : Config}
    {stripe id offset size : ℕ} {flag : Bool} {q : Queued}
    (hq : q ∈ queueTasks cfg' stripe id t size flag offset bss nb true) {e x : ℕ}
    (he : IsEqual nb e) (hx₁ : bss e ≤ x) (hx₂ : x < bss (e + 1)) :
    ¬ (q.task.begin ≤ offset + x ∧ offset + x < q.task.stop) := by
  have hmem := List.mem_map_of_mem (f := Queued.task) hq
  rw [map_task_queueTasks] at hmem
  split_ifs at hmem
  · cases hmem
  · obtain ⟨c, hc, heq⟩ := List.mem_map.mp hmem
    obtain ⟨hcn, hne, -⟩ := (mem_pendingBuckets h).mp hc
    rw [← heq]
    dsimp only
    rintro ⟨h₁, h₂⟩
    exact hne ⟨rfl, h.eq_of_mem hcn (by omega) (by omega) (by omega) hx₁ hx₂ ▸ he⟩

/-- **Equality buckets stay in the input array just when no edge of a stripe meets them**: every one
that is not empty lies strictly inside a stripe. -/
theorem equalBucketsStay_iff (h : Boundaries true nb n bss) (ht : 1 ≤ t) (harr : p.arr ≠ tmp.arr)
    (lastLevel : Bool) (hfull : ∀ x < n, ∃ v, m.slot (tmp + x) = .full v) :
    EqualBucketsStay comp cfg p tmp m lastLevel nb n t bss ↔
      ∀ e, IsEqual nb e → bss e < bss (e + 1) →
        ∃ i, first n t i < bss e ∧ bss (e + 1) < first n t (i + 1) := by
  have hiso := finishPool_isolated comp cfg h ht harr lastLevel hfull
  have hn : ∀ e, IsEqual nb e → bss (e + 1) ≤ n := fun e he => by
    have := h.mono (show e + 1 ≤ nb by omega) le_rfl
    rwa [h.last] at this
  constructor
  · rintro ⟨hstay, -⟩ e he hpos
    rw [← countP_shares_eq_zero_iff h ht he hpos]
    intro x hx₁ hx₂
    refine List.countP_eq_zero.mpr fun op hop hsh => ?_
    -- a thread that shares the element leaves its slot empty
    obtain ⟨i, hi, hop⟩ := List.mem_flatMap.mp hop
    rw [List.mem_range] at hi
    have hcount : (threadOps true nb n t bss i).countP (·.shares x) ≠ 0 :=
      Nat.pos_iff_ne_zero.mp (List.countP_pos_iff.mpr ⟨op, hop, hsh⟩)
    have hown : Owns nb n t bss i x := by
      rw [threadOps, if_pos rfl, countP_shares h ht he hx₁ hx₂] at hcount
      rw [owns_equal h he hx₁ hx₂]
      split_ifs at hcount with hc
      · exact ⟨hc.1, hc.2.1⟩
      · exact absurd rfl hcount
    obtain ⟨sched, log, P', hrun, hret⟩ := hiso.exists_run (List.finRange t)
    have hret' : ∀ i, P'.Returned i := fun i => hret i (List.mem_finRange i)
    obtain ⟨b, hb⟩ := hret' ⟨i, hi⟩
    obtain ⟨m₂, hm₂, hagree⟩ := (hiso.run hrun).2.2.1 ⟨i, hi⟩ b hb
    have hraw := hm₂.1 e he x hx₁ hx₂ hown
    rw [if_neg hcount] at hraw
    have hsame : m₂.slot (tmp + x) = P'.mem.slot (tmp + x) :=
      hagree (.elem (tmp + x)) ⟨x, hown, .inr rfl⟩
    obtain ⟨v, hv⟩ := hfull x (hx₂.trans_le (hn e he))
    have := hstay sched log P' hrun hret' e he x hx₁ hx₂
    rw [← hsame, hraw, hv] at this
    cases this
  · refine fun hin => ⟨fun sched log P' hrun hret e he x hx₁ hx₂ => ?_,
      fun cfg' stripe id offset q hq e he x hx₁ hx₂ => queueTasks_disjoint h hq he hx₁ hx₂⟩
    have hzero := (countP_shares_eq_zero_iff h ht he (hx₁.trans_lt hx₂)).mpr
      (hin e he (hx₁.trans_lt hx₂)) x hx₁ hx₂
    have hxn := hx₂.trans_le (hn e he)
    have hi := owner_lt ht hxn
    have hown : Owns nb n t bss (owner n t x) x :=
      (owns_equal h he hx₁ hx₂).mpr ⟨first_owner_le ht hxn, lt_first_owner ht hxn⟩
    obtain ⟨b, hb⟩ := hret ⟨owner n t x, hi⟩
    obtain ⟨m₂, hm₂, hagree⟩ := (hiso.run hrun).2.2.1 ⟨owner n t x, hi⟩ b hb
    have hsame : m₂.slot (tmp + x) = P'.mem.slot (tmp + x) :=
      hagree (.elem (tmp + x)) ⟨x, hown, .inr rfl⟩
    rw [← hsame, hm₂.1 e he x hx₁ hx₂ hown, if_pos]
    refine List.countP_eq_zero.mpr fun op hop => List.countP_eq_zero.mp hzero op ?_
    exact List.mem_flatMap.mpr ⟨owner n t x, List.mem_range.mpr hi, hop⟩

end

/-- Elements from three buckets, distributed to the input array. -/
def threeKinds (a b c : ℕ) : Mem Arr (Slot ℕ) :=
  Mem.ofList ⟨.input, 0⟩ (List.replicate a 0 ++ List.replicate b 1 ++ List.replicate c 2)
  fun _ => 0

theorem threeKinds_full (a b c x : ℕ) (hx : x < a + b + c) :
    ∃ v, (threeKinds a b c).slot ((⟨.input, 0⟩ : Ptr Arr) + x) = .full v := by
  have hlen : ((List.replicate a 0 ++ List.replicate b 1 ++ List.replicate c 2).map
      Slot.full).length = a + b + c := by
    simp only [List.length_map, List.length_append, List.length_replicate]
  have hget := List.getElem?_eq_getElem (hlen ▸ hx)
  obtain ⟨v, -, hv⟩ := Option.map_eq_some_iff.mp (by rwa [List.getElem?_map] at hget)
  exact ⟨v, (has_ofList _ _ _ x _ hget).trans hv.symm⟩

/-- Two threads share the large elements, and the equal ones are inside of one stripe. -/
theorem equalBucketsStay_fewEqual :
    EqualBucketsStay (fun a b => decide (a < b)) defaultConfig ⟨.tmp, 0⟩
      ⟨.input, 0⟩ (threeKinds 1000 192 7000) false 4 8192 2 fewEqual :=
  (equalBucketsStay_iff fewEqual_boundaries (by decide) (by decide) false
    (threeKinds_full 1000 192 7000)).mpr
  fun e he _ => by
    obtain rfl : e = 1 := by omega
    exact ⟨0, by decide, by decide⟩

/-- Two threads share the equal elements, and move them out of the input array. -/
theorem not_equalBucketsStay_manyEqual :
    ¬ EqualBucketsStay (fun a b => decide (a < b)) defaultConfig ⟨.tmp, 0⟩
      ⟨.input, 0⟩ (threeKinds 100 7900 192) false 4 8192 2 manyEqual := by
  rw [equalBucketsStay_iff manyEqual_boundaries (by decide) (by decide) false
    (threeKinds_full 100 7900 192)]
  intro h
  obtain ⟨i, h₁, h₂⟩ := h 1 (by decide) (by decide)
  have hfirst : ∀ i, first 8192 2 i = min (i * 4096) 8192 := fun _ => rfl
  rw [hfirst] at h₁ h₂
  rw [show manyEqual 1 = 100 from rfl] at h₁
  rw [show manyEqual (1 + 1) = 8000 from rfl] at h₂
  omega

end Ps4o
