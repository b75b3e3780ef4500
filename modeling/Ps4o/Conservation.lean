import Ps4o.Order.Work
import Ps4o.SmallTasks

/-!
# What is left of a task

A task is partitioned, by one thread or by several. Some of its buckets are finished then; the
others are tasks, with their elements in the other array.

## What is proved

* `Layout.Dealt.exists_contents`, `Layout.Contents.ordered` — what each position of a partitioned
  range holds, and that elements are in order, but for those of a bucket that is left.
* `Task.Split.divided` — **partitioning divides a task**: each of its positions is finished or
  belongs to one of the new tasks, no element is lost, and what does not belong to the same new task
  is in order.
-/

namespace Ps4o

open Ps4o.Program Ps4o.Storage Ps4o.Order Ps4o.Order.Work

variable {A α : Type}

/-! ### Tasks and arrays -/

/-- Where the elements of a task are. -/
def Task.source (begin tmp : Ptr A) (task : Task) : Ptr A :=
  if task.inInputArray then begin else tmp

/-- Where they are distributed to. -/
def Task.target (begin tmp : Ptr A) (task : Task) : Ptr A :=
  if task.inInputArray then tmp else begin

/-- The elements of a task, when `cur` says what they are. -/
def Task.elems (cur : ℕ → α) (task : Task) : List α :=
  (List.range (task.stop - task.begin)).map fun i => cur (task.begin + i)

/-- They are where the task says. -/
def Task.InPlace (begin tmp : Ptr A) (cur : ℕ → α) (m : Mem A α) (task : Task) : Prop :=
  ∀ x, Covers Task.begin Task.stop x task → m.slot (task.source begin tmp + x) = cur x

/-- The elements of a task, which were `xs`, have been partitioned. -/
def Task.Split (comp : α → α → Bool) (cfg : Config) (begin tmp : Ptr A) (task : Task) (xs : List α)
    (useEqualBuckets : Bool) (bss : ℕ → ℕ) (numBuckets : ℕ) (m : Mem A α) : Prop :=
  Partitioned comp cfg (task.source begin tmp + task.begin) (task.target begin tmp + task.begin) xs
    (decide (task.stop - task.begin ≤ cfg.kSingleLevelThreshold)) task.inInputArray
      useEqualBuckets bss numBuckets m

section
variable {comp : α → α → Bool} {cfg : Config} {begin tmp p q : Ptr A} {task : Task} {xs : List α}
  {eq : Bool} {bss : ℕ → ℕ} {nb : ℕ} {m : Mem A α} {cur : ℕ → α}

@[simp] theorem Task.length_elems (cur : ℕ → α) (task : Task) :
    (task.elems cur).length = task.stop - task.begin := by
  rw [Task.elems, List.length_map, List.length_range]

theorem Task.InPlace.has (h : task.InPlace begin tmp cur m) :
    Has m (task.source begin tmp + task.begin) (task.elems cur) := by
  intro i v hv
  obtain ⟨hi, rfl⟩ := List.getElem?_eq_some_iff.mp hv
  rw [Task.length_elems] at hi
  simp only [Task.elems, List.getElem_map, List.getElem_range]
  rw [Ptr.add_assoc]
  exact h _ ⟨Nat.le_add_right _ _, by omega⟩

theorem Task.elems_congr {cur' : ℕ → α}
    (h : ∀ x, Covers Task.begin Task.stop x task → cur' x = cur x) :
    task.elems cur' = task.elems cur := by
  refine List.map_congr_left fun i hi => h _ ⟨Nat.le_add_right _ _, ?_⟩
  have := List.mem_range.mp hi
  omega

/-- The boundaries of the buckets. -/
theorem Partitioned.boundaries {lastLevel inInputArray : Bool}
    (h : Partitioned comp cfg p q xs lastLevel inInputArray eq bss nb m) (hpos : 0 < xs.length) :
    Boundaries eq nb xs.length bss := by
  obtain ⟨L, -, -, hperm, rfl, rfl, hbss, -⟩ := h
  rw [← hperm.length_eq]
  exact L.boundaries (by rwa [Layout.n, hperm.length_eq]) hbss

/-! ### Buckets -/

/-- Where the elements of a bucket are once the buckets have been dealt with. -/
def Layout.home (L : Layout comp A) (cfg : Config) (lastLevel inInputArray : Bool) (b : ℕ) :
    Ptr A :=
  if L.Finishes cfg lastLevel b then if inInputArray then L.p else L.tmp else L.tmp

/-- The elements of each bucket are permuted, and those of a finished bucket are sorted. -/
theorem Layout.Dealt.content {L : Layout comp A} {lastLevel inInputArray : Bool}
    (h : L.Dealt cfg lastLevel inInputArray m) {b : ℕ} (hb : b < L.numBuckets) :
    ∃ ys : List α, ys.Perm (L.bucket b) ∧ (L.Finishes cfg lastLevel b → Sorted comp ys) ∧
      Has m (L.home cfg lastLevel inInputArray b + L.start b) ys := by
  have hb' := h b hb
  rw [Layout.home]
  by_cases hfin : L.Finishes cfg lastLevel b
  · rw [if_pos hfin] at hb' ⊢
    obtain ⟨ys, hperm, hsorted, hm⟩ := hb'
    exact ⟨ys, hperm, fun _ => hsorted, hm⟩
  · rw [if_neg hfin] at hb' ⊢
    exact ⟨_, .rfl, fun hf => absurd hf hfin, hb'⟩

/-- Lists that are permutations of the buckets are a permutation of the elements. -/
theorem Layout.perm_of_buckets {L : Layout comp A} {f : ℕ → α}
    (h : ∀ b < L.numBuckets, ((List.range (L.size b)).map fun i => f (L.start b + i)).Perm
      (L.bucket b)) : ((List.range L.n).map f).Perm L.elems := by
  have hpre : ∀ k ≤ L.numBuckets, ((List.range (L.start k)).map f).Perm
      (distributed L.keys L.elems k) := by
    intro k
    induction k with
    | zero => exact fun _ => by simp [distributed]
    | succ k ih =>
      intro hk
      rw [L.start_add_size, List.range_add, List.map_append, List.map_map, distributed_succ]
      exact (ih (by omega)).append (h k hk)
  have hall := hpre L.numBuckets le_rfl
  rw [show L.start L.numBuckets = L.n from (start_eq_length L.key_lt).trans L.length_eq] at hall
  exact hall.trans (distributed_perm L.length_eq L.key_lt)

/-- Position `x` of a range whose buckets have been dealt with belongs to bucket `bk x`, and holds
`f x`. -/
structure Layout.Contents (L : Layout comp A) (cfg : Config) (lastLevel inInputArray : Bool)
    (m : Mem A α) (bk : ℕ → ℕ) (f : ℕ → α) : Prop where
  bucket : ∀ x < L.n, bk x < L.numBuckets ∧ L.start (bk x) ≤ x ∧ x < L.start (bk x + 1)
  slot : ∀ x < L.n, m.slot (L.home cfg lastLevel inInputArray (bk x) + x) = f x
  perm : ∀ b < L.numBuckets, ((List.range (L.size b)).map fun i => f (L.start b + i)).Perm
    (L.bucket b)
  sorted : ∀ b < L.numBuckets, L.Finishes cfg lastLevel b →
    Sorted comp ((List.range (L.size b)).map fun i => f (L.start b + i))

section
variable {L : Layout comp A} {lastLevel inInputArray : Bool} {bk : ℕ → ℕ} {f : ℕ → α}

theorem Layout.Dealt.exists_contents (h : L.Dealt cfg lastLevel inInputArray m) :
    ∃ bk f, L.Contents cfg lastLevel inInputArray m bk f := by
  have hbounds : ∀ x < L.n, Boundaries L.useEqualBuckets L.numBuckets L.n L.start := fun x hx =>
    L.boundaries (by omega) fun _ _ => rfl
  choose! bk hbk using fun x (hx : x < L.n) => (hbounds x hx).exists_bucket hx
  have hlist : ∀ b < L.numBuckets, ∃ ys : List α, ys.Perm (L.bucket b) ∧
      (L.Finishes cfg lastLevel b → Sorted comp ys) ∧
        (List.range (L.size b)).map (fun i => m.slot
          (L.home cfg lastLevel inInputArray (bk (L.start b + i)) + (L.start b + i))) = ys := by
    intro b hb
    obtain ⟨ys, hys, hsorted, hm⟩ := h.content hb
    have hlen : ys.length = L.size b := hys.length_eq.trans (L.length_bucket b)
    have hend := L.end_le b
    have hsucc := L.start_add_size b
    refine ⟨ys, hys, hsorted, List.ext_getElem (by simp [hlen]) fun i _ hi => ?_⟩
    have hlt : L.start b + i < L.n := by omega
    obtain ⟨h₁, h₂, h₃⟩ := hbk _ hlt
    have hbki : bk (L.start b + i) = b :=
      (hbounds _ hlt).eq_of_mem h₁ hb h₂ h₃ (Nat.le_add_right _ _) (by omega)
    rw [List.getElem_map, List.getElem_range, hbki, ← Ptr.add_assoc]
    exact hm i _ (List.getElem?_eq_getElem hi)
  refine ⟨bk, fun x => m.slot (L.home cfg lastLevel inInputArray (bk x) + x),
    ⟨hbk, fun _ _ => rfl, fun b hb => ?_, fun b hb hfin => ?_⟩⟩
  · obtain ⟨ys, hys, -, heq⟩ := hlist b hb
    rwa [heq]
  · obtain ⟨ys, -, hsorted, heq⟩ := hlist b hb
    rw [heq]
    exact hsorted hfin

theorem Layout.Contents.mem (h : L.Contents cfg lastLevel inInputArray m bk f) {x : ℕ}
    (hx : x < L.n) : f x ∈ L.bucket (bk x) := by
  obtain ⟨hb, h₁, h₂⟩ := h.bucket x hx
  have hsucc := L.start_add_size (bk x)
  refine (h.perm _ hb).mem_iff.mp (List.mem_map.mpr ⟨x - L.start (bk x), ?_, ?_⟩)
  · exact List.mem_range.mpr (by omega)
  · rw [Nat.add_sub_of_le h₁]

/-- Elements are in order, but for those of a bucket that is left. -/
theorem Layout.Contents.ordered (h : L.Contents cfg lastLevel inInputArray m bk f) {x y : ℕ}
    (hxy : x < y) (hy : y < L.n) (hfin : bk x = bk y → L.Finishes cfg lastLevel (bk x)) :
    comp (f y) (f x) = false := by
  have hx := hxy.trans hy
  obtain ⟨hb, hx₁, hx₂⟩ := h.bucket x hx
  obtain ⟨hc, hy₁, hy₂⟩ := h.bucket y hy
  rcases Nat.lt_trichotomy (bk x) (bk y) with hlt | heq | hgt
  · exact L.ordered _ _ _ _ hlt (h.mem hx) (h.mem hy)
  · have hpair := List.pairwise_iff_getElem.mp (h.sorted _ hb (hfin heq))
    have hsucc := L.start_add_size (bk x)
    rw [← heq] at hy₁ hy₂
    have := hpair (x - L.start (bk x)) (y - L.start (bk x)) (by simp; omega) (by simp; omega)
      (by omega)
    simpa only [List.getElem_map, List.getElem_range, Nat.add_sub_of_le hx₁,
      Nat.add_sub_of_le hy₁] using this
  · have : L.start (bk y + 1) ≤ L.start (bk x) := start_mono _ hgt
    omega

end

/-! ### The tasks that are left -/

/-- Which buckets are new tasks: those that are not finished. -/
theorem mem_emplaced {L : Layout comp A}
    (h : Boundaries L.useEqualBuckets L.numBuckets (task.stop - task.begin) bss)
    (hbss : ∀ b ≤ L.numBuckets, bss b = L.start b) {u : Task} :
    u ∈ emplaced cfg task bss L.numBuckets L.useEqualBuckets ↔ ∃ b < L.numBuckets,
      ¬ L.Finishes cfg (decide (task.stop - task.begin ≤ cfg.kSingleLevelThreshold)) b ∧
        u = ⟨task.begin + bss b, task.begin + bss (b + 1), !task.inInputArray⟩ := by
  have hsize : ∀ b < L.numBuckets, bss (b + 1) - bss b = L.size b := fun b hb => by
    rw [hbss b hb.le, hbss (b + 1) hb, L.start_add_size, Nat.add_sub_cancel_left]
  rw [emplaced]
  split_ifs with hlast
  · refine ⟨fun hu => absurd hu List.not_mem_nil, ?_⟩
    rintro ⟨b, -, hfin, -⟩
    exact absurd (.inr (.inl (decide_eq_true hlast))) hfin
  · rw [List.mem_map]
    refine exists_congr fun b => ?_
    rw [mem_pendingBuckets h, and_assoc, eq_comm (b := u)]
    refine and_congr_right fun hb => ?_
    rw [hsize b hb, Layout.Finishes, ← and_assoc]
    refine and_congr_left fun _ => ?_
    simp only [decide_eq_true_eq, hlast, false_or, not_or, not_le]

/-- A position lies in one new task, if its bucket is not finished, and else in none. -/
theorem countP_emplaced {L : Layout comp A}
    (h : Boundaries L.useEqualBuckets L.numBuckets (task.stop - task.begin) bss)
    (hbss : ∀ b ≤ L.numBuckets, bss b = L.start b) {b x : ℕ} (hb : b < L.numBuckets)
    (h₁ : task.begin + bss b ≤ x) (h₂ : x < task.begin + bss (b + 1)) :
    (emplaced cfg task bss L.numBuckets L.useEqualBuckets).countP
    (fun u => Covers Task.begin Task.stop x u) =
      if L.Finishes cfg (decide (task.stop - task.begin ≤ cfg.kSingleLevelThreshold)) b then 0
        else 1 := by
  have hcover : ∀ c < L.numBuckets, task.begin + bss c ≤ x ∧ x < task.begin + bss (c + 1) → c = b :=
      fun c hc hx =>
    h.eq_of_mem (x := x - task.begin) hc hb (by omega) (by omega) (by omega) (by omega)
  split_ifs with hfin
  · refine List.countP_eq_zero.mpr fun u hu hx => ?_
    obtain ⟨c, hc, hnot, rfl⟩ := (mem_emplaced h hbss).mp hu
    obtain rfl := hcover c hc (of_decide_eq_true hx)
    exact hnot hfin
  · have hmem : _ ∈ emplaced cfg task bss L.numBuckets L.useEqualBuckets :=
      (mem_emplaced h hbss).mpr ⟨b, hb, hfin, rfl⟩
    rw [emplaced] at hmem ⊢
    split_ifs at hmem ⊢
    · cases hmem
    · have hpend : b ∈ pendingBuckets cfg bss L.numBuckets L.useEqualBuckets := by
        obtain ⟨c, hc, heq⟩ := List.mem_map.mp hmem
        have hcx := hcover c ((mem_pendingBuckets h).mp hc).1 (by
          have h₃ := congrArg Task.begin heq
          have h₄ := congrArg Task.stop heq
          dsimp only at h₃ h₄
          omega)
        rwa [← hcx]
      have hcount : (pendingBuckets cfg bss L.numBuckets L.useEqualBuckets).countP (· == b) = 1 :=
        List.count_eq_one_of_mem (nodup_pendingBuckets h) hpend
      rw [List.countP_map]
      refine (List.countP_congr fun c hc => ?_).trans hcount
      have hiff : (task.begin + bss c ≤ x ∧ x < task.begin + bss (c + 1)) ↔ c = b :=
        ⟨hcover c ((mem_pendingBuckets h).mp hc).1, by rintro rfl; exact ⟨h₁, h₂⟩⟩
      exact decide_eq_true_iff.trans (hiff.trans beq_iff_eq.symm)

/-- What a task has been divided into, when `cur` said what its elements were: `cur'` says what they
are, and `finished'` which positions are finished. Finished elements are in the input array, those
of the new tasks where these say. -/
structure Task.DividedInto (comp : α → α → Bool) (cfg : Config) (begin tmp : Ptr A) (task : Task)
    (parts : List Task) (m : Mem A α) (cur cur' : ℕ → α) (finished finished' : ℕ → Bool) :
    Prop where
  divided : Divided Task.begin Task.stop comp task finished finished' parts cur cur'
  done : ∀ x, Covers Task.begin Task.stop x task → finished' x = true → m.slot (begin + x) = cur' x
  inPlace : ∀ u ∈ parts, u.InPlace begin tmp cur' m
  large : ∀ u ∈ parts, 2 * cfg.kBaseCaseSize < u.stop - u.begin

/-- The buckets that become tasks are too large for the base case. -/
theorem lt_of_mem_emplaced (h : Boundaries eq nb (task.stop - task.begin) bss) {u : Task}
    (hu : u ∈ emplaced cfg task bss nb eq) : 2 * cfg.kBaseCaseSize < u.stop - u.begin := by
  rw [emplaced] at hu
  split_ifs at hu
  · cases hu
  · obtain ⟨b, hb, rfl⟩ := List.mem_map.mp hu
    have hlarge := ((mem_pendingBuckets h).mp hb).2.2
    dsimp only
    omega

/-- `f` in the interval of a task, counted from its beginning, and `g` elsewhere. -/
def Task.overlay {β : Type} (task : Task) (f g : ℕ → β) (x : ℕ) : β :=
  if Covers Task.begin Task.stop x task then f (x - task.begin) else g x

section
variable {β : Type} {f g : ℕ → β} {x i : ℕ}

theorem Task.overlay_of_not (hx : ¬ Covers Task.begin Task.stop x task) :
    task.overlay f g x = g x := if_neg hx

theorem Task.overlay_add (hi : i < task.stop - task.begin) :
    task.overlay f g (task.begin + i) = f i := by
  rw [Task.overlay, if_pos ⟨Nat.le_add_right _ _, by omega⟩, Nat.add_sub_cancel_left]

/-- A position of a task is one of its range. -/
theorem Task.exists_of_covers (hx : Covers Task.begin Task.stop x task) :
    ∃ i < task.stop - task.begin, x = task.begin + i := by
  obtain ⟨h₁, h₂⟩ := hx
  exact ⟨x - task.begin, by omega, by omega⟩

end

section
variable {L : Layout comp A} {bk : ℕ → ℕ} {f : ℕ → α} {finished : ℕ → Bool}

/-- The buckets that are not finished divide the task. -/
theorem Layout.Contents.divided
    (h : L.Contents cfg (decide (task.stop - task.begin ≤ cfg.kSingleLevelThreshold))
      task.inInputArray m bk f) (hle : task.begin ≤ task.stop)
    (hn : L.n = task.stop - task.begin) (hperm : L.elems.Perm (task.elems cur))
    (hbounds : Boundaries L.useEqualBuckets L.numBuckets (task.stop - task.begin) bss)
    (hbss : ∀ b ≤ L.numBuckets, bss b = L.start b) :
    Divided Task.begin Task.stop comp task finished
      (task.overlay (fun i => decide (L.Finishes cfg
        (decide (task.stop - task.begin ≤ cfg.kSingleLevelThreshold)) (bk i))) finished)
      (emplaced cfg task bss L.numBuckets L.useEqualBuckets) cur (task.overlay f cur) := by
  have hbucket : ∀ i < task.stop - task.begin, bk i < L.numBuckets ∧ bss (bk i) ≤ i ∧
      i < bss (bk i + 1) := fun i hi => by
    obtain ⟨hb, h₁, h₂⟩ := h.bucket i (hi.trans_eq hn.symm)
    rw [hbss _ hb.le, hbss (_ + 1) hb]
    exact ⟨hb, h₁, h₂⟩
  refine ⟨fun x hx => ⟨Task.overlay_of_not hx, Task.overlay_of_not hx⟩, fun u hu => ?_,
    fun x hx => ?_, ?_, fun x y hx hxy hy hu => ?_⟩
  · obtain ⟨b, hb, -, rfl⟩ := (mem_emplaced hbounds hbss).mp hu
    have hstep := hbounds.step b hb
    have hend := hbounds.end_le hb
    exact ⟨Nat.le_add_right _ _, Nat.add_le_add_left hstep _, by dsimp only; omega⟩
  · obtain ⟨i, hi, rfl⟩ := Task.exists_of_covers hx
    obtain ⟨hb, h₁, h₂⟩ := hbucket i hi
    rw [Multiset.coe_countP, Task.overlay_add hi,
      countP_emplaced hbounds hbss hb (Nat.add_le_add_left h₁ _) (Nat.add_lt_add_left h₂ _)]
    split_ifs with hfin
    · rw [decide_eq_true hfin]
      rfl
    · rw [decide_eq_false hfin]
      rfl
  · have hall := (L.perm_of_buckets h.perm).trans hperm
    rw [hn] at hall
    refine (List.Perm.of_eq (List.map_congr_left fun i hi => ?_)).trans hall
    exact Task.overlay_add (List.mem_range.mp hi)
  · obtain ⟨i, hi, rfl⟩ := Task.exists_of_covers ⟨hx, hxy.trans hy⟩
    obtain ⟨j, hj, rfl⟩ := Task.exists_of_covers ⟨hx.trans hxy.le, hy⟩
    rw [Task.overlay_add hi, Task.overlay_add hj]
    refine h.ordered (Nat.lt_of_add_lt_add_left hxy) (hj.trans_eq hn.symm) fun heq => ?_
    -- a bucket that is left would be a task of both
    by_contra hfin
    obtain ⟨hb, h₁, -⟩ := hbucket i hi
    have hj₂ := (hbucket j hj).2.2
    rw [← heq] at hj₂
    exact hu _ (Multiset.mem_coe.mpr ((mem_emplaced hbounds hbss).mpr ⟨_, hb, hfin, rfl⟩))
      ⟨Nat.add_le_add_left h₁ _, Nat.add_lt_add_left hj₂ _⟩

/-- A bucket that is left is where the task for it says. -/
theorem Layout.Contents.inPlace
    (h : L.Contents cfg (decide (task.stop - task.begin ≤ cfg.kSingleLevelThreshold))
      task.inInputArray m bk f)
    (hn : L.n = task.stop - task.begin) (htmp : L.tmp = task.target begin tmp + task.begin)
    (hbounds : Boundaries L.useEqualBuckets L.numBuckets (task.stop - task.begin) bss)
    (hbss : ∀ b ≤ L.numBuckets, bss b = L.start b) {u : Task}
    (hu : u ∈ emplaced cfg task bss L.numBuckets L.useEqualBuckets) :
    u.InPlace begin tmp (task.overlay f cur) m := by
  intro x hx
  obtain ⟨b, hb, hfin, rfl⟩ := (mem_emplaced hbounds hbss).mp hu
  obtain ⟨hx₁, hx₂⟩ := hx
  dsimp only at hx₁ hx₂
  have hend := hbounds.end_le hb
  have hcovers : Covers Task.begin Task.stop x task := ⟨by omega, by omega⟩
  obtain ⟨i, hi, rfl⟩ := Task.exists_of_covers hcovers
  obtain ⟨h₁, h₂, h₃⟩ := h.bucket i (hi.trans_eq hn.symm)
  rw [← hbss _ h₁.le] at h₂
  rw [← hbss _ h₁] at h₃
  have hbi : bk i = b := hbounds.eq_of_mem h₁ hb h₂ h₃ (by omega) (by omega)
  rw [Task.overlay_add hi, ← h.slot i (hi.trans_eq hn.symm), hbi, Layout.home, if_neg hfin, htmp,
    Ptr.add_assoc, Task.source, Task.target]
  cases task.inInputArray
  · rfl
  · rfl

end

/-- **Partitioning divides a task.** -/
theorem Task.Split.divided (h : task.Split comp cfg begin tmp (task.elems cur) eq bss nb m)
    (hlt : task.begin < task.stop) (finished : ℕ → Bool) : ∃ cur' finished',
      task.DividedInto comp cfg begin tmp (emplaced cfg task bss nb eq) m cur
        cur' finished finished' := by
  have hbounds := Partitioned.boundaries h (by rw [Task.length_elems]; omega)
  rw [Task.length_elems] at hbounds
  obtain ⟨L, hp, htmp, hperm, rfl, rfl, hbss, hdealt⟩ := h
  have hn : L.n = task.stop - task.begin := hperm.length_eq.trans (Task.length_elems cur task)
  obtain ⟨bk, f, hf⟩ := hdealt.exists_contents
  refine ⟨_, _, hf.divided hlt.le hn hperm hbounds hbss, fun x hx hfin => ?_,
    fun u hu => hf.inPlace hn htmp hbounds hbss hu, fun u hu => lt_of_mem_emplaced hbounds hu⟩
  -- what is finished is in the input array
  obtain ⟨i, hi, rfl⟩ := Task.exists_of_covers hx
  rw [Task.overlay_add hi, decide_eq_true_eq] at hfin
  rw [Task.overlay_add hi, ← hf.slot i (hi.trans_eq hn.symm), Layout.home, if_pos hfin, hp, htmp,
    Task.source, Task.target]
  cases task.inInputArray
  · simp [Ptr.add_assoc]
  · simp [Ptr.add_assoc]

end

end Ps4o
