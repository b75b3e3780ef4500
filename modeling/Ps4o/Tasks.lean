import Mathlib.Data.List.Nodup
import Ps4o.PostProcessing

/-!
# Tasks

What is left of a range after it has been partitioned: buckets that are queued for a further level,
by `queueTasks` (`parallel.hpp`) when several threads have partitioned it, and by `sequential` on a
task (`sequential.hpp`) when one has.

## What is proved

* `mem_pendingBuckets` — the buckets that are queued are those that are not equality buckets, nor
  small; each of them is queued once (`nodup_pendingBuckets`).
* `inInput_equal_iff` — when an equality bucket lies in the input array after partitioning.
* `agree_iff` — the sorter that partitions a big task and the one that queues its buckets agree on
  every bucket just when their thresholds decide alike on the sizes at hand.
-/

namespace Ps4o

open Ps4o.Order.Stripes

/-! ### The code -/

/-- A subtask in the parallel algorithm. -/
structure Task where
  /-- Where it begins. -/
  begin : ℕ
  /-- Where it ends. -/
  stop : ℕ
  /-- Whether its elements are in the input array. -/
  inInputArray : Bool
  deriving DecidableEq

/-- `for (int i = from; i >= 0; i -= step)`. -/
def downFrom (step i : ℕ) : List ℕ := (List.range (i / step + 1)).map fun j => i - step * j

/-- The buckets that are looked at when there is a further level, in this order. -/
def lookedAt (numBuckets : ℕ) (equalBuckets : Bool) : List ℕ :=
  (if equalBuckets then [numBuckets - 1] else []) ++
    -- Skip equality buckets
    downFrom (1 + equalBuckets.toNat) (numBuckets - 1 - equalBuckets.toNat)

/-- Those of them that are queued. -/
def pendingBuckets (cfg : Config) (bucketStart : ℕ → ℕ) (numBuckets : ℕ) (equalBuckets : Bool) :
    List ℕ :=
  (lookedAt numBuckets equalBuckets).filter fun i => 2 * cfg.kBaseCaseSize <
  bucketStart (i + 1) - bucketStart i

/-- Where `queueTasks` puts a task. -/
inductive Queued where
  /-- Into the queue of a thread. -/
  | small (thread : ℕ) (task : Task)
  /-- To the threads from `threadBegin` to `threadEnd`, which do it together. -/
  | big (threadBegin threadEnd : ℕ) (task : Task)
  deriving DecidableEq

/-- The task. -/
def Queued.task : Queued → Task
  | .small _ task | .big _ _ task => task

/-- Queues the part from `taskBegin` to `taskEnd` of a task at `offset`. -/
def queueTask (stripe id parentTaskStripe : ℕ) (parentInInputArray : Bool)
    (offset taskBegin taskEnd : ℕ) : Queued :=
  let threadBegin := (offset + taskBegin + stripe / 2) / stripe
  let threadEnd := (offset + taskEnd + stripe / 2) / stripe
  let taskSize := taskEnd - taskBegin
  let task : Task := ⟨offset + taskBegin, offset + taskEnd, !parentInInputArray⟩
  if threadEnd - threadBegin ≤ 1 then .small
    (id + (taskBegin + taskSize / 2) / parentTaskStripe) task
  else .big threadBegin threadEnd task

/-- Queues the buckets of a task of `parentTaskSize` elements at `offset`, if we didn't reach the
last level yet. -/
def queueTasks (cfg : Config) (stripe id taskNumThreads parentTaskSize : ℕ)
    (parentInInputArray : Bool) (offset : ℕ) (bucketStart : ℕ → ℕ) (numBuckets : ℕ)
    (equalBuckets : Bool) : List Queued :=
  let parentTaskStripe := width parentTaskSize taskNumThreads
  if parentTaskSize ≤ cfg.kSingleLevelThreshold then []
  else (pendingBuckets cfg bucketStart numBuckets equalBuckets).map fun i =>
    queueTask stripe id parentTaskStripe parentInInputArray offset (bucketStart i)
      (bucketStart (i + 1))

/-- What `sequential` on a task puts into the thread's own queue, if it is not the last level. -/
def emplaced (cfg : Config) (task : Task) (bucketStartSave : ℕ → ℕ) (numBuckets : ℕ)
    (equalBuckets : Bool) : List Task :=
  if task.stop - task.begin ≤ cfg.kSingleLevelThreshold then []
  else (pendingBuckets cfg bucketStartSave numBuckets equalBuckets).map fun i =>
    ⟨task.begin + bucketStartSave i, task.begin + bucketStartSave (i + 1), !task.inInputArray⟩

/-! ### The buckets that are queued -/

section
variable {cfg : Config} {eq : Bool} {nb n : ℕ} {bss : ℕ → ℕ}

theorem mem_downFrom {step i c : ℕ} : c ∈ downFrom step i ↔ c ≤ i ∧ c % step = i % step := by
  simp only [downFrom, List.mem_map, List.mem_range]
  constructor
  · rintro ⟨j, hj, rfl⟩
    have hle : step * j ≤ i := (Nat.mul_le_mul_left step (Nat.lt_succ_iff.mp hj)).trans
      (Nat.mul_div_le i step)
    exact ⟨Nat.sub_le i _, Nat.sub_mul_mod hle⟩
  · rintro ⟨hle, hmod⟩
    have hi := Nat.div_add_mod i step
    have hc := Nat.div_add_mod c step
    have hdiv : c / step ≤ i / step := Nat.div_le_div_right hle
    refine ⟨i / step - c / step, Nat.lt_succ_of_le (Nat.sub_le _ _), ?_⟩
    rw [Nat.mul_sub]
    have := Nat.mul_le_mul_left step hdiv
    rw [hmod] at hc
    omega

theorem nodup_downFrom {step i : ℕ} (hs : 0 < step) : (downFrom step i).Nodup := by
  refine List.Nodup.map_on (fun j hj k hk hjk => ?_) List.nodup_range
  have hle : ∀ j ∈ List.range (i / step + 1), step * j ≤ i := fun j hj =>
    (Nat.mul_le_mul_left step (Nat.lt_succ_iff.mp (List.mem_range.mp hj))).trans
      (Nat.mul_div_le i step)
  have := hle j hj
  have := hle k hk
  exact Nat.eq_of_mul_eq_mul_left hs (by omega)

/-- All buckets are looked at but the equality buckets. -/
theorem mem_lookedAt (h : Boundaries eq nb n bss) {c : ℕ} :
    c ∈ lookedAt nb eq ↔ c < nb ∧ ¬ (eq = true ∧ IsEqual nb c) := by
  have hpos := h.pos
  rw [lookedAt, List.mem_append, mem_downFrom]
  cases eq with
  | false =>
    simp only [Bool.false_eq_true, if_false, List.not_mem_nil, Bool.toNat_false,
      Nat.add_zero, Nat.mod_one, false_or, false_and, not_false_eq_true, and_true]
    omega
  | true =>
    have heven := h.even
    have hfour := h.four
    simp only [if_true, List.mem_singleton, Bool.toNat_true, true_and]
    omega

theorem nodup_lookedAt (h : Boundaries eq nb n bss) : (lookedAt nb eq).Nodup := by
  rw [lookedAt]
  refine List.Nodup.append ?_ (nodup_downFrom (by omega)) ?_
  · split_ifs <;> simp
  · intro c hc hc'
    rw [mem_downFrom] at hc'
    split_ifs at hc with he
    · subst he
      have := h.four
      have := List.mem_singleton.mp hc
      simp only [Bool.toNat_true] at hc'
      omega
    · cases hc

/-- **What is queued**: the buckets that are not equality buckets, nor small. -/
theorem mem_pendingBuckets (h : Boundaries eq nb n bss) {c : ℕ} :
    c ∈ pendingBuckets cfg bss nb eq ↔
      c < nb ∧ ¬ (eq = true ∧ IsEqual nb c) ∧ 2 * cfg.kBaseCaseSize < bss (c + 1) - bss c := by
  rw [pendingBuckets, List.mem_filter, mem_lookedAt h, decide_eq_true_iff, and_assoc]

theorem nodup_pendingBuckets (h : Boundaries eq nb n bss) : (pendingBuckets cfg bss nb eq).Nodup :=
  (nodup_lookedAt h).filter _

theorem queueTask_task (stripe id parentTaskStripe : ℕ) (flag : Bool)
    (offset taskBegin taskEnd : ℕ) :
    (queueTask stripe id parentTaskStripe flag offset taskBegin taskEnd).task =
      ⟨offset + taskBegin, offset + taskEnd, !flag⟩ := by
  unfold queueTask
  dsimp only
  split_ifs <;> rfl

/-- The tasks that are queued, wherever they are put. -/
theorem map_task_queueTasks (stripe id t size : ℕ) (flag : Bool) (offset : ℕ) :
    (queueTasks cfg stripe id t size flag offset bss nb eq).map Queued.task =
      if size ≤ cfg.kSingleLevelThreshold then []
      else (pendingBuckets cfg bss nb eq).map fun i =>
        ⟨offset + bss i, offset + bss (i + 1), !flag⟩ := by
  unfold queueTasks
  dsimp only
  split_ifs
  · rfl
  · rw [List.map_map]
    exact List.map_congr_left fun i _ => queueTask_task _ _ _ _ _ _ _

/-! ### Two sorters -/

/-- Whether a step takes the element at a position out of the array it has been distributed to. -/
def PostOp.takes (cfg : Config) (lastLevel inInputArray : Bool) (bss : ℕ → ℕ) (x : ℕ)
    (op : PostOp) : Bool :=
  if inInputArray then op.transfers cfg lastLevel bss x else op.shares x

/-- The elements of bucket `b` lie in the physical input array after a range of `n` elements has
been partitioned by `t` threads. If the range was in the input array, they have been distributed to
the other one, and have to be put back; if the range was in the other array, they must stay. Moving
an element leaves its place without it, unless elements are trivially copyable (`trivial`): so
nothing is moved twice. -/
def InInput (cfg : Config) (trivial eq : Bool) (nb n t : ℕ) (bss : ℕ → ℕ) (inInputArray : Bool)
    (b : ℕ) : Prop :=
  ∀ x, bss b ≤ x → x < bss (b + 1) →
    let times := (postOps eq nb n t bss).countP
      (·.takes cfg (n ≤ cfg.kSingleLevelThreshold) inInputArray bss x)
    times = inInputArray.toNat ∨ (trivial = true ∧ inInputArray.toNat ≤ times)

/-- Partitioning finishes a bucket: there is nothing in it, or it is an equality bucket, or a thread
is told to sort it and does; and then it lies in the physical input array. -/
def FinishedBy (cfg : Config) (trivial eq : Bool) (nb n t : ℕ) (bss : ℕ → ℕ) (inInputArray : Bool)
    (b : ℕ) : Prop :=
  bss (b + 1) = bss b ∨
    ((eq = true ∧ IsEqual nb b) ∨ (.sortAndMove b ∈ postOps eq nb n t bss ∧
      (n ≤ cfg.kSingleLevelThreshold ∨ bss (b + 1) - bss b ≤ 2 * cfg.kBaseCaseSize))) ∧
    InInput cfg trivial eq nb n t bss inInputArray b

/-- How often a bucket of a big task is queued. -/
def timesQueued (cfg : Config) (stripe id t : ℕ) (task : Task) (bss : ℕ → ℕ) (nb : ℕ) (eq : Bool)
    (b : ℕ) : ℕ :=
  ((queueTasks cfg stripe id t (task.stop - task.begin) task.inInputArray task.begin bss nb eq).map
    Queued.task).count ⟨task.begin + bss b, task.begin + bss (b + 1), !task.inInputArray⟩

/-- The sorter that partitions a big task, which always has the default configuration, and the one
that queues its buckets agree: every bucket is either finished or queued, and queued once. -/
def Agree (cfg : Config) (trivial : Bool) (stripe id t : ℕ) (task : Task) (bss : ℕ → ℕ) (nb : ℕ)
    (eq : Bool) : Prop :=
  ∀ b < nb,
    (FinishedBy defaultConfig trivial eq nb (task.stop - task.begin) t bss task.inInputArray b ∧
        timesQueued cfg stripe id t task bss nb eq b = 0) ∨
      (¬ FinishedBy defaultConfig trivial eq nb (task.stop - task.begin) t bss task.inInputArray b ∧
        timesQueued cfg stripe id t task bss nb eq b = 1)

/-- A bucket that has elements is queued once, or not at all. -/
theorem timesQueued_eq (h : Boundaries eq nb n bss) (stripe id t : ℕ) (task : Task) {b : ℕ}
    (hb : b < nb) : timesQueued cfg stripe id t task bss nb eq b =
      if cfg.kSingleLevelThreshold < task.stop - task.begin ∧ ¬ (eq = true ∧ IsEqual nb b) ∧
        2 * cfg.kBaseCaseSize < bss (b + 1) - bss b then 1 else 0 := by
  rw [timesQueued, map_task_queueTasks]
  split
  · next hle => rw [List.count_nil, if_neg (fun hx => absurd hx.1 (Nat.not_lt.mpr hle))]
  · next hgt =>
    -- different buckets that are queued have different boundaries
    have hinj : ∀ c ∈ pendingBuckets cfg bss nb eq,
        (⟨task.begin + bss c, task.begin + bss (c + 1), !task.inInputArray⟩ : Task) =
          ⟨task.begin + bss b, task.begin + bss (b + 1), !task.inInputArray⟩ ↔ c = b := by
      intro c hc
      obtain ⟨hcn, -, hsize⟩ := (mem_pendingBuckets h).mp hc
      constructor
      · intro heq
        rw [Task.mk.injEq] at heq
        obtain ⟨h₁, h₂, -⟩ := heq
        exact h.eq_of_mem hcn hb le_rfl (show bss c < bss (c + 1) by omega) (by omega) (by omega)
      · rintro rfl
        rfl
    have hcount : (pendingBuckets cfg bss nb eq).countP
        ((fun task' => task' == ⟨task.begin + bss b, task.begin + bss (b + 1),
            !task.inInputArray⟩) ∘ fun i =>
          (⟨task.begin + bss i, task.begin + bss (i + 1), !task.inInputArray⟩ : Task)) =
        (pendingBuckets cfg bss nb eq).count b := by
      refine List.countP_congr fun c hc => ?_
      simp only [Function.comp_apply, beq_iff_eq]
      exact hinj c hc
    rw [List.count, List.countP_map, hcount, (nodup_pendingBuckets h).count]
    refine if_congr ((mem_pendingBuckets h).trans ?_) rfl rfl
    exact ⟨fun ⟨_, h₁, h₂⟩ => ⟨Nat.lt_of_not_le hgt, h₁, h₂⟩, fun ⟨_, h₁, h₂⟩ => ⟨hb, h₁, h₂⟩⟩

/-- **Where an equality bucket lies**: in the input array, unless it has been moved when it should
not. -/
theorem inInput_equal_iff (h : Boundaries true nb n bss) {t : ℕ} (ht : 1 ≤ t)
    (trivial inInputArray : Bool) {e : ℕ} (he : IsEqual nb e) (hpos : bss e < bss (e + 1)) :
    InInput cfg trivial true nb n t bss inInputArray e ↔ trivial = true ∨
      if inInputArray then ∀ i < t, ¬ DoneTwice n t bss i e
      else ∃ i, first n t i < bss e ∧ bss (e + 1) < first n t (i + 1) := by
  unfold InInput PostOp.takes
  cases inInputArray with
  | true =>
    simp only [if_true, Bool.toNat_true]
    rw [← sum_doneTwice_eq_zero_iff]
    constructor
    · intro hin
      have := hin _ le_rfl hpos
      rw [countP_postOps h ht _ _ he le_rfl hpos, Nat.add_eq_left] at this
      exact this.symm.imp_left And.left
    · intro hor x hx₁ hx₂
      rw [countP_postOps h ht _ _ he hx₁ hx₂, Nat.add_eq_left]
      exact hor.symm.imp_right fun htr => ⟨htr, Nat.le_add_right 1 _⟩
  | false =>
    simp only [Bool.false_eq_true, if_false, Bool.toNat_false, Nat.zero_le, and_true]
    rw [← countP_shares_eq_zero_iff h ht he hpos]
    cases trivial with
    | true => exact iff_of_true (fun _ _ _ => .inr rfl) (.inl rfl)
    | false => simp only [Bool.false_eq_true, or_false, false_or]

/-- Any other bucket that is finished lies in the input array. -/
theorem inInput_other (h : Boundaries eq nb n bss) {t : ℕ} (ht : 1 ≤ t)
    (trivial inInputArray : Bool) {b : ℕ} (hb : b < nb) (hne : ¬ (eq = true ∧ IsEqual nb b))
    (hsmall : n ≤ cfg.kSingleLevelThreshold ∨ bss (b + 1) - bss b ≤ 2 * cfg.kBaseCaseSize) :
    InInput cfg trivial eq nb n t bss inInputArray b := by
  intro x hx₁ hx₂
  refine .inl ?_
  unfold PostOp.takes
  cases inInputArray with
  | true =>
    simp only [if_true, Bool.toNat_true]
    rw [countP_postOps_other h ht cfg _ hb hne hx₁ hx₂]
    exact if_pos (hsmall.imp_left decide_eq_true)
  | false =>
    simp only [Bool.false_eq_true, if_false, Bool.toNat_false]
    -- only parts of equality buckets are shared
    refine List.countP_eq_zero.mpr fun op hop => ?_
    obtain ⟨i, -, hop⟩ := List.mem_flatMap.mp hop
    rcases mem_threadOps h ht hop with ⟨c, -, -, rfl⟩ | ⟨e, -, rfl⟩ | ⟨e, lo,
      hi, he, rfl, hlo, hhi, -, -⟩
    · exact Bool.false_ne_true
    · exact Bool.false_ne_true
    · simp only [PostOp.shares, decide_eq_true_eq]
      rintro ⟨h₁, h₂⟩
      have := he.2
      exact hne (h.eq_of_mem (by omega) hb (hlo.trans h₁) (h₂.trans_le hhi) hx₁ hx₂ ▸ he)

/-- **The two sorters agree just when their thresholds do**: on every bucket that has elements and
is not an equality bucket, the default configuration and the user's either both find that there is
no further level, or that it is small, or neither does. If moving an element leaves its place
without it, then moreover equality buckets are not moved when they should not be. -/
theorem agree_iff {task : Task} (h : Boundaries eq nb (task.stop - task.begin) bss) {t : ℕ}
    (ht : 1 ≤ t) (trivial : Bool) (stripe id : ℕ) :
    Agree cfg trivial stripe id t task bss nb eq ↔
      ∀ b < nb, bss b < bss (b + 1) →
        if eq = true ∧ IsEqual nb b then
          trivial = true ∨
            if task.inInputArray then ∀ i < t, ¬ DoneTwice (task.stop - task.begin) t bss i b
            else ∃ i, first (task.stop - task.begin) t i < bss b ∧
              bss (b + 1) < first (task.stop - task.begin) t (i + 1)
        else
          ((task.stop - task.begin ≤ defaultConfig.kSingleLevelThreshold ∨
              bss (b + 1) - bss b ≤ 2 * defaultConfig.kBaseCaseSize) ↔
            (task.stop - task.begin ≤ cfg.kSingleLevelThreshold ∨
              bss (b + 1) - bss b ≤ 2 * cfg.kBaseCaseSize)) := by
  refine forall₂_congr fun b hb => ?_
  rw [timesQueued_eq h stripe id t task hb]
  have hstep := h.step b hb
  rcases Nat.eq_or_lt_of_le hstep with hempty | hpos
  · exact iff_of_true (.inl ⟨.inl hempty.symm, if_neg (by omega)⟩) fun hlt => absurd hlt (by omega)
  rw [forall_prop_of_true hpos]
  by_cases heq : eq = true ∧ IsEqual nb b
  · -- an equality bucket is not queued, so it has to be finished
    obtain ⟨rfl, he⟩ := heq
    rw [if_neg (fun hx => hx.2.1 ⟨rfl, he⟩), if_pos ⟨rfl, he⟩,
      ← inInput_equal_iff h ht trivial _ he hpos]
    have hfin : FinishedBy defaultConfig trivial true nb
        (task.stop - task.begin) t bss task.inInputArray b ↔
        InInput defaultConfig trivial true nb (task.stop - task.begin) t bss task.inInputArray b :=
      ⟨fun h₁ => (h₁.resolve_left (by omega)).2, fun h₁ => .inr ⟨.inl ⟨rfl, he⟩, h₁⟩⟩
    rw [hfin]
    exact ⟨fun h₁ => h₁.elim And.left fun h₂ => absurd h₂.2 Nat.zero_ne_one,
      fun h₁ => .inl ⟨h₁, rfl⟩⟩
  · have hmem : PostOp.sortAndMove b ∈ postOps eq nb (task.stop - task.begin) t bss := by
      refine List.count_pos_iff.mp ?_
      rw [count_sortAndMove h ht hb heq hpos]
      exact Nat.one_pos
    have hfin : FinishedBy defaultConfig trivial eq nb
        (task.stop - task.begin) t bss task.inInputArray b ↔
        (task.stop - task.begin ≤ defaultConfig.kSingleLevelThreshold ∨
          bss (b + 1) - bss b ≤ 2 * defaultConfig.kBaseCaseSize) := by
      constructor
      · rintro (h₁ | ⟨h₁ | h₁, -⟩)
        · omega
        · exact absurd h₁ heq
        · exact h₁.2
      · exact fun h₁ => .inr ⟨.inr ⟨hmem, h₁⟩, inInput_other h ht trivial _ hb heq h₁⟩
    rw [if_neg heq, hfin, not_or]
    simp only [heq, not_false_eq_true, true_and]
    split_ifs with hq
    · simp only [and_false, and_true, false_or]
      constructor
      · intro hnot
        exact ⟨fun hd => absurd hd (not_or.mpr hnot), fun hu => absurd hu (by omega)⟩
      · intro hiff
        exact not_or.mp fun hd => absurd (hiff.mp hd) (by omega)
    · simp only [and_true, and_false, or_false]
      constructor
      · intro hd
        exact ⟨fun _ => by omega, fun _ => hd⟩
      · intro hiff
        exact hiff.mpr (by omega)

end

/-- Sixteen buckets of 3000 elements, none with more than 188. -/
def sixteenths (b : ℕ) : ℕ := b * 3000 / 16

theorem sixteenths_boundaries : Boundaries false 16 3000 sixteenths :=
  ⟨by decide, rfl, rfl, by decide, fun h => absurd h Bool.false_ne_true⟩

/-- With the default configuration, two threads finish no bucket of them, and queue all. -/
theorem agree_sixteenths :
    Agree defaultConfig true 1200 1 2 ⟨600, 3600, false⟩ sixteenths 16 false :=
  (agree_iff sixteenths_boundaries (by decide) true 1200 1).mpr fun b _ _ => by
    rw [if_neg fun h => Bool.false_ne_true h.1]

/-- With base cases of 32 elements, 3000 elements are too few for a further level: two threads
finish no bucket, because their own base cases are smaller, and nothing is queued. -/
theorem not_agree_sixteenths :
    ¬ Agree { kBaseCaseSize := 32 } true 1200 1 2 ⟨600, 3600, false⟩ sixteenths 16 false := by
  rw [agree_iff sixteenths_boundaries (by decide)]
  intro h
  have := h 0 (by decide) (by decide)
  rw [if_neg fun h => Bool.false_ne_true h.1] at this
  revert this
  decide

end Ps4o
