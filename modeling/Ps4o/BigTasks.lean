import Mathlib.Logic.Function.Basic
import Mathlib.Logic.Relation
import Ps4o.Tasks

/-!
# Groups of threads

The threads that do a big task together: which they are is written into an array with an entry for
each thread, and into an array of thread pools, by the thread at whose place the pool is
(`parallel.hpp`). Once they have partitioned the task, this thread queues its buckets. Some of them
become big tasks again, for some of the threads.

## The model

`Groups` is the state of both arrays and, of every thread in `queueTasks`, what it has yet to queue.
A step queues one bucket; threads take their steps in any order. What a partition returns is
arbitrary, as far as bucket boundaries do not decrease. Nothing keeps the threads of a new group
from starting before all buckets have been queued: what is proved does not rely on it.

## What is proved

* `queueTasks_within` — where buckets are queued: to threads of the group.
* `queueTasks_apart` — no two of them to the same threads.
* `groups_nested` — **groups have two threads at least and no thread in common, they are parts of
  the group that has queued them, and so are the threads that get small tasks**.
-/

namespace Ps4o

open Ps4o.Order.Stripes

/-! ### The code -/

/-- What a thread is told about a big task. -/
structure BigTask where
  /-- Where it begins. -/
  begin : ℕ
  /-- Where it ends. -/
  stop : ℕ
  /-- My thread id of this task. -/
  taskThreadId : ℕ
  /-- Index of the thread owning the thread pool used by this task. -/
  rootThread : ℕ
  /-- Whether its elements are in the input array. -/
  inInputArray : Bool
  /-- Indicates whether this is a task or not. -/
  hasTask : Bool
  deriving DecidableEq

/-- What is shared about big tasks. -/
structure Board where
  /-- For each thread, its task. -/
  bigTasks : ℕ → BigTask
  /-- For each thread that owns a thread pool, the number of threads in it. -/
  threadPools : ℕ → ℕ

/-- The threads of a task have no task. -/
def Board.reset (b : Board) (id taskNumThreads : ℕ) : Board :=
  { b with bigTasks := fun t =>
      if id ≤ t ∧ t < id + taskNumThreads then { b.bigTasks t with hasTask := false }
        else b.bigTasks t }

/-- What `queueTask` writes when it queues a big task: a new thread pool, and the task. -/
def Board.put (b : Board) : Queued → Board
  | .small _ _ => b
  | .big threadBegin threadEnd task =>
    { bigTasks := fun t =>
        if threadBegin ≤ t ∧ t < threadEnd then
          ⟨task.begin, task.stop, t - threadBegin, threadBegin, task.inInputArray, true⟩
        else b.bigTasks t
      threadPools := Function.update b.threadPools threadBegin (threadEnd - threadBegin) }

/-- A task whose buckets are queued. -/
structure Parent where
  /-- The thread that queues them. -/
  id : ℕ
  /-- How many threads have partitioned it; the first one is `id`. -/
  taskNumThreads : ℕ
  /-- The task. -/
  task : Task
  deriving DecidableEq

/-- The board, the threads in `queueTasks`, and a record. -/
structure Groups where
  /-- What is shared. -/
  board : Board
  /-- Whether the whole range has been partitioned. -/
  started : Bool
  /-- For each thread in `queueTasks`, the task and what is yet to be queued. -/
  queueing : ℕ → Option (Parent × List Queued)
  /-- For each thread that has owned a thread pool, the task of which its last one is a part. -/
  parent : ℕ → Parent
  /-- Small tasks that have been queued: as parts of which task, to which thread. -/
  small : List (Parent × ℕ × Task)

namespace Groups

/-- A big task is outstanding; its thread pool belongs to thread `r`. -/
def Outstanding (g : Groups) (r : ℕ) : Prop := (g.board.bigTasks r).hasTask = true ∧
    (g.board.bigTasks r).rootThread = r

instance (g : Groups) (r : ℕ) : Decidable (g.Outstanding r) := inferInstanceAs (Decidable (_ ∧ _))

/-- The big task of thread `r`. -/
def taskOf (g : Groups) (r : ℕ) : Parent :=
  ⟨r, g.board.threadPools r, (g.board.bigTasks r).begin, (g.board.bigTasks r).stop,
    (g.board.bigTasks r).inInputArray⟩

/-- A thread calls `queueTasks`. -/
def enter (g : Groups) (cfg : Config) (stripe : ℕ) (p : Parent) (bss : ℕ → ℕ) (nb : ℕ) (eq : Bool) :
    Groups :=
  { g with
    board := g.board.reset p.id p.taskNumThreads
    queueing := Function.update g.queueing p.id
      (some (p, queueTasks cfg stripe p.id p.taskNumThreads
      (p.task.stop - p.task.begin) p.task.inInputArray p.task.begin bss nb eq)) }

/-- It queues a bucket. -/
def put (g : Groups) (id : ℕ) (p : Parent) (q : Queued) (rest : List Queued) : Groups :=
  { g with
    board := g.board.put q
    queueing := Function.update g.queueing id (some (p, rest))
    parent := match q with
      | .small _ _ => g.parent
      | .big threadBegin _ _ => Function.update g.parent threadBegin p
    small := match q with
      | .small thread task => (p, thread, task) :: g.small
      | .big _ _ _ => g.small }

/-- It returns from `queueTasks`. -/
def leave (g : Groups) (id : ℕ) : Groups :=
  { g with queueing := Function.update g.queueing id none }

/-- In the beginning there are no tasks; there may have been some when something else was sorted. -/
structure Start (g : Groups) : Prop where
  started : g.started = false
  queueing : ∀ id, g.queueing id = none
  noTask : ∀ t, (g.board.bigTasks t).hasTask = false
  small : g.small = []

end Groups

/-- What is known about the buckets of a range of `n` elements: their boundaries do not decrease. -/
structure BucketBounds (useEqualBuckets : Bool) (nb n : ℕ) (bss : ℕ → ℕ) : Prop where
  pos : 1 ≤ nb
  /-- If there are equality buckets, one stands behind the first bucket. -/
  two : useEqualBuckets = true → 2 ≤ nb
  zero : bss 0 = 0
  last : bss nb = n
  step : ∀ b < nb, bss b ≤ bss (b + 1)

/-- One step of one thread, when `t` threads sort `n` elements. -/
inductive Groups.Step (cfg : Config) (n t : ℕ) : Groups → Groups → Prop
  /-- The whole range has been partitioned; thread `0` queues its buckets if this is not the last
  level. -/
  | first {g : Groups} {eq : Bool} {nb : ℕ} {bss : ℕ → ℕ} (hg : g.started = false)
    (hb : BucketBounds eq nb n bss) :
    Step cfg n t g (if n ≤ cfg.kSingleLevelThreshold then { g with started := true }
      else Groups.enter { g with started := true } cfg (width n t) ⟨0, t, 0, n, true⟩ bss nb eq)
  /-- A big task has been partitioned; the thread that owns the thread pool queues its buckets. -/
  | partitioned {g : Groups} {id : ℕ} {eq : Bool} {nb : ℕ} {bss : ℕ → ℕ} (hg : g.Outstanding id)
    (hq : g.queueing id = none) (hb : BucketBounds eq nb
      ((g.taskOf id).task.stop - (g.taskOf id).task.begin) bss) :
    Step cfg n t g (g.enter cfg (width n t) (g.taskOf id) bss nb eq)
  /-- A thread queues a bucket. -/
  | put {g : Groups} {id : ℕ} {p : Parent} {q : Queued} {rest : List Queued}
    (hq : g.queueing id = some (p, q :: rest)) :
    Step cfg n t g (g.put id p q rest)
  /-- A thread has queued all buckets. -/
  | leave {g : Groups} {id : ℕ} {p : Parent} (hq : g.queueing id = some (p, [])) :
    Step cfg n t g (g.leave id)

/-- The states that can be reached. -/
def Groups.Reachable (cfg : Config) (n t : ℕ) (g : Groups) : Prop :=
  ∃ g₀ : Groups, g₀.Start ∧ Relation.ReflTransGen (Step cfg n t) g₀ g

/-! ### Where buckets are queued -/

section
variable {cfg : Config} {eq : Bool} {nb n : ℕ} {bss : ℕ → ℕ}

theorem BucketBounds.mono (h : BucketBounds eq nb n bss) {b c : ℕ} (hbc : b ≤ c) (hc : c ≤ nb) :
    bss b ≤ bss c := by
  induction c, hbc using Nat.le_induction with
  | base => exact le_rfl
  | succ c _ ih => exact (ih (Nat.le_of_succ_le hc)).trans (h.step c hc)

theorem BucketBounds.lt_of_mem (h : BucketBounds eq nb n bss) {c : ℕ}
    (hc : c ∈ pendingBuckets cfg bss nb eq) :
    c < nb ∧ 2 * cfg.kBaseCaseSize < bss (c + 1) - bss c := by
  rw [pendingBuckets, List.mem_filter, lookedAt, List.mem_append, mem_downFrom,
    decide_eq_true_iff] at hc
  obtain ⟨hc, hlarge⟩ := hc
  have := h.pos
  refine ⟨?_, hlarge⟩
  rcases hc with hc | hc
  · split_ifs at hc
    · have := List.mem_singleton.mp hc
      omega
    · cases hc
  · omega

theorem BucketBounds.nodup (h : BucketBounds eq nb n bss) :
    (pendingBuckets cfg bss nb eq).Nodup := by
  refine List.Nodup.filter _ (List.Nodup.append ?_ (nodup_downFrom (by omega)) ?_)
  · split_ifs
    · exact List.nodup_singleton _
    · exact List.nodup_nil
  · intro c hc hc'
    rw [mem_downFrom] at hc'
    split_ifs at hc with he
    · subst he
      have := h.two rfl
      have := List.mem_singleton.mp hc
      have := Bool.toNat_true
      omega
    · cases hc

/-- The thread whose stripe begins closest to a position. -/
def nearest (stripe x : ℕ) : ℕ := (x + stripe / 2) / stripe

theorem nearest_mono {stripe x y : ℕ} (h : x ≤ y) : nearest stripe x ≤ nearest stripe y :=
  Nat.div_le_div_right (Nat.add_le_add_right h _)

/-- Nobody is behind the last thread. -/
theorem nearest_le {n t : ℕ} (ht : 1 ≤ t) : nearest (width n t) n ≤ t := by
  rcases Nat.eq_zero_or_pos (width n t) with h | h
  · rw [nearest, h, Nat.div_zero]
    exact Nat.zero_le t
  · have := le_mul_width (n := n) ht
    refine Nat.le_of_lt_succ ((Nat.div_lt_iff_lt_mul h).mpr ?_)
    rw [Nat.succ_mul]
    exact Nat.add_lt_add_of_le_of_lt this (Nat.div_lt_self h (by omega))

/-- A bucket is queued to threads of the task. -/
def Queued.Within (stripe : ℕ) (p : Parent) : Queued → Prop
  | .small thread _ => p.id ≤ thread ∧ thread < p.id + p.taskNumThreads
  | .big threadBegin threadEnd task =>
    (p.id ≤ threadBegin ∧ threadBegin + 2 ≤ threadEnd ∧ threadEnd ≤ p.id + p.taskNumThreads) ∧
      task.begin ≤ task.stop ∧ nearest stripe task.begin = threadBegin ∧
      nearest stripe task.stop = threadEnd

/-- Two buckets are not queued as big tasks to a thread that they have in common. -/
def Queued.Apart : Queued → Queued → Prop
  | .big a b _, .big a' b' _ => b ≤ a' ∨ b' ≤ a
  | _, _ => True

theorem Queued.Apart.symm {q q' : Queued} (h : q.Apart q') : q'.Apart q := by
  cases q <;> cases q' <;> first | exact Or.symm h | trivial

/-- The threads of a task are those nearest to its elements. -/
structure Parent.Placed (stripe : ℕ) (p : Parent) : Prop where
  pos : 1 ≤ p.taskNumThreads
  le : p.task.begin ≤ p.task.stop
  begin : p.id ≤ nearest stripe p.task.begin
  stop : nearest stripe p.task.stop ≤ p.id + p.taskNumThreads

/-- **Buckets are queued to threads of the task.** -/
theorem queueTasks_within {stripe : ℕ} {p : Parent} (hp : p.Placed stripe)
    (h : BucketBounds eq nb (p.task.stop - p.task.begin) bss) :
    ∀ q ∈ queueTasks cfg stripe p.id p.taskNumThreads (p.task.stop - p.task.begin)
      p.task.inInputArray p.task.begin bss nb eq, q.Within stripe p := by
  intro q hq
  rw [queueTasks] at hq
  split_ifs at hq
  · cases hq
  obtain ⟨c, hc, rfl⟩ := List.mem_map.mp hq
  obtain ⟨hcnb, hlarge⟩ := h.lt_of_mem hc
  have hend : bss (c + 1) ≤ p.task.stop - p.task.begin := by
    rw [← h.last]
    exact h.mono hcnb le_rfl
  have hle := hp.le
  rw [queueTask]
  split_ifs with hfew
  · have hwidth := le_mul_width (n := p.task.stop - p.task.begin) hp.pos
    have hpos := width_pos (n := p.task.stop - p.task.begin) hp.pos (by omega)
    refine ⟨Nat.le_add_right _ _, Nat.add_lt_add_left ((Nat.div_lt_iff_lt_mul hpos).mpr ?_) _⟩
    refine lt_of_lt_of_le ?_ hwidth
    omega
  · refine ⟨⟨hp.begin.trans (nearest_mono (Nat.le_add_right _ _)), by omega,
      ?_⟩, by dsimp only; omega, rfl, rfl⟩
    refine le_trans ?_ hp.stop
    exact nearest_mono (by omega)

/-- **No thread gets two of the big tasks that are queued.** -/
theorem queueTasks_apart {stripe id t size offset : ℕ} {flag : Bool}
    (h : BucketBounds eq nb n bss) :
    (queueTasks cfg stripe id t size flag offset bss nb eq).Pairwise Queued.Apart := by
  rw [queueTasks]
  split_ifs
  · exact .nil
  rw [List.pairwise_map]
  refine h.nodup.imp_of_mem fun {c d} hc hd hne => ?_
  have hapart : ∀ {c d : ℕ}, c < d → d < nb →
      nearest stripe (offset + bss (c + 1)) ≤ nearest stripe (offset + bss d) := fun hcd hd =>
    nearest_mono (Nat.add_le_add_left (h.mono hcd hd.le) _)
  rw [queueTask, queueTask]
  split_ifs
  · trivial
  · trivial
  · trivial
  · rcases Nat.lt_or_gt_of_ne hne with hcd | hcd
    · exact .inl (hapart hcd (h.lt_of_mem hd).1)
    · exact .inr (hapart hcd (h.lt_of_mem hc).1)

end

/-! ### The invariant -/

namespace Groups

variable {cfg : Config} {n t stripe : ℕ} {g g' : Groups} {r id : ℕ} {p p' : Parent} {q q' : Queued}
  {rest rest' : List Queued}

/-- What holds of the big task of thread `r`: its threads are told the same, they are those nearest
to its elements, and threads of the task it is a part of. -/
structure Grouped (stripe : ℕ) (g : Groups) (r : ℕ) : Prop where
  two : 2 ≤ g.board.threadPools r
  entries : ∀ i < g.board.threadPools r, g.board.bigTasks (r + i) =
    ⟨(g.board.bigTasks r).begin, (g.board.bigTasks r).stop, i, r,
      (g.board.bigTasks r).inInputArray, true⟩
  le : (g.board.bigTasks r).begin ≤ (g.board.bigTasks r).stop
  begin : nearest stripe (g.board.bigTasks r).begin = r
  stop : nearest stripe (g.board.bigTasks r).stop = r + g.board.threadPools r
  nested : (g.parent r).id ≤ r ∧ r + g.board.threadPools r ≤
    (g.parent r).id + (g.parent r).taskNumThreads

/-- The threads of which a bucket takes the board. -/
def Takes (q : Queued) (x : ℕ) : Prop :=
  match q with
  | .small _ _ => False
  | .big threadBegin threadEnd _ => threadBegin ≤ x ∧ x < threadEnd

/-- What holds of a thread in `queueTasks`. -/
structure Queues (stripe t : ℕ) (g : Groups) (id : ℕ) (p : Parent) (rest : List Queued) : Prop where
  id : p.id = id
  le : p.id + p.taskNumThreads ≤ t
  within : ∀ q ∈ rest, q.Within stripe p
  apart : rest.Pairwise Queued.Apart
  /-- Threads that are to get a task have none. -/
  free : ∀ q ∈ rest, ∀ x, Takes q x → (g.board.bigTasks x).hasTask = false

/-- What holds of the threads, `t` in all. -/
structure Inv (stripe t : ℕ) (g : Groups) : Prop where
  /-- A thread with a task is one of the threads of a big task. -/
  member : ∀ x, (g.board.bigTasks x).hasTask = true →
    (g.board.bigTasks x).rootThread ≤ x ∧
      x < (g.board.bigTasks x).rootThread + g.board.threadPools (g.board.bigTasks x).rootThread ∧
      (g.board.bigTasks x).rootThread + g.board.threadPools (g.board.bigTasks x).rootThread ≤ t ∧
      Grouped stripe g (g.board.bigTasks x).rootThread
  queues : ∀ id p rest, g.queueing id = some (p, rest) → Queues stripe t g id p rest
  apart : ∀ id id' p p' rest rest', id ≠ id' → g.queueing id = some (p, rest) →
    g.queueing id' = some (p', rest') →
    ∀ q ∈ rest, ∀ q' ∈ rest', q.Apart q'
  small : ∀ e ∈ g.small, e.1.id ≤ e.2.1 ∧ e.2.1 < e.1.id + e.1.taskNumThreads
  fresh : g.started = false → (∀ x, (g.board.bigTasks x).hasTask = false) ∧
    ∀ id, g.queueing id = none

theorem Start.inv (h : g.Start) : Inv stripe t g := by
  refine ⟨fun x hx => ?_, fun id p rest hq => ?_,
    fun id id' p p' rest rest' _ hq => ?_, fun e he => ?_, fun _ => ⟨h.noTask, h.queueing⟩⟩
  · rw [h.noTask x] at hx
    cases hx
  · rw [h.queueing id] at hq
    cases hq
  · rw [h.queueing id] at hq
    cases hq
  · rw [h.small] at he
    cases he

theorem Apart.not_takes {x : ℕ} (h : q.Apart q') (hx : Takes q x) : ¬ Takes q' x := by
  cases q with
  | small => exact hx.elim
  | big a b task =>
    cases q' with
    | small => exact id
    | big a' b' task' =>
      intro hx'
      rcases h with h | h
      · exact absurd (hx.2.trans_le (h.trans hx'.1)) (lt_irrefl x)
      · exact absurd (hx'.2.trans_le (h.trans hx.1)) (lt_irrefl x)

/-- Buckets whose threads have none in common with the threads of a task. -/
theorem apart_of_not_takes (hq : q.Within stripe p)
    (h : ∀ x, p.id ≤ x → x < p.id + p.taskNumThreads → ¬ Takes q' x) (hq' : q'.Within stripe p') :
    q.Apart q' := by
  cases q with
  | small => cases q' <;> trivial
  | big a b task =>
    cases q' with
    | small => trivial
    | big a' b' task' =>
      obtain ⟨⟨ha, hab, hb⟩, -⟩ := hq
      obtain ⟨⟨-, hab', -⟩, -⟩ := hq'
      by_contra hnot
      obtain ⟨hlt, hlt'⟩ := not_or.mp hnot
      exact h (max a a') (ha.trans (le_max_left a a')) (by omega) ⟨le_max_right a a', by omega⟩

/-- A group stays as it is as long as nobody writes to its threads. -/
theorem Grouped.frame (h : Grouped stripe g r)
    (hpool : g'.board.threadPools r = g.board.threadPools r) (hparent : g'.parent r = g.parent r)
    (hsame : ∀ x, r ≤ x → x < r + g.board.threadPools r →
      g'.board.bigTasks x = g.board.bigTasks x) : Grouped stripe g' r := by
  have htwo := h.two
  have hr : g'.board.bigTasks r = g.board.bigTasks r := hsame r le_rfl (by omega)
  refine ⟨hpool ▸ htwo, fun i hi => ?_, hr ▸ h.le, hr ▸ h.begin, ?_, ?_⟩
  · rw [hpool] at hi
    rw [hsame (r + i) (Nat.le_add_right r i) (Nat.add_lt_add_left hi r), h.entries i hi, hr]
  · rw [hr, hpool]
    exact h.stop
  · rw [hparent, hpool]
    exact h.nested

/-- The threads of a group all have a task. -/
theorem Grouped.hasTask (h : Grouped stripe g r) {x : ℕ} (hx : r ≤ x)
    (hx' : x < r + g.board.threadPools r) :
    g.board.bigTasks x = ⟨(g.board.bigTasks r).begin, (g.board.bigTasks r).stop, x - r, r,
      (g.board.bigTasks r).inInputArray, true⟩ := by
  have := h.entries (x - r) (by omega)
  rwa [Nat.add_sub_of_le hx] at this

theorem bigTasks_reset {b : Board} {k x : ℕ} (h : ¬ (id ≤ x ∧ x < id + k)) :
    (b.reset id k).bigTasks x = b.bigTasks x := if_neg h

theorem hasTask_reset {b : Board} {k x : ℕ} (h : ((b.reset id k).bigTasks x).hasTask = true) :
    ¬ (id ≤ x ∧ x < id + k) ∧ (b.bigTasks x).hasTask = true := by
  by_cases hx : id ≤ x ∧ x < id + k
  · rw [Board.reset] at h
    dsimp only at h
    rw [if_pos hx] at h
    cases h
  · rw [bigTasks_reset hx] at h
    exact ⟨hx, h⟩

theorem hasTask_reset_of {b : Board} {k x : ℕ}
    (h : (b.bigTasks x).hasTask = false ∨ id ≤ x ∧ x < id + k) :
    ((b.reset id k).bigTasks x).hasTask = false := by
  by_contra htask
  obtain ⟨hx, htask⟩ := hasTask_reset (eq_true_of_ne_false htask)
  rcases h with h | h
  · rw [h] at htask
    cases htask
  · exact hx h

theorem queueing_enter {eq : Bool} {nb : ℕ} {bss : ℕ → ℕ} (id : ℕ) :
    (g.enter cfg stripe p bss nb eq).queueing id =
      if id = p.id then some
        (p, queueTasks cfg stripe p.id p.taskNumThreads (p.task.stop - p.task.begin)
        p.task.inInputArray p.task.begin bss nb eq)
          else g.queueing id := Function.update_apply _ _ _ _

theorem queueing_put (id' : ℕ) :
    (g.put id p q rest).queueing id' = if id' = id then some (p, rest) else g.queueing id' :=
  Function.update_apply _ _ _ _

theorem bigTasks_put {b : Board} {x : ℕ} (h : ¬ Takes q x) :
    (b.put q).bigTasks x = b.bigTasks x := by
  cases q with
  | small => rfl
  | big => exact if_neg h

theorem Grouped.takes_root (h : Grouped stripe g r)
    (hfree : ∀ x, Takes q x → (g.board.bigTasks x).hasTask = false) {x : ℕ} (hx : r ≤ x)
    (hx' : x < r + g.board.threadPools r) : ¬ Takes q x := by
  intro htakes
  have := hfree x htakes
  rw [h.hasTask hx hx'] at this
  cases this

/-- A group to whose threads nothing is queued keeps its thread pool, and is still a part of the
same task. -/
theorem Grouped.frame_put (h : Grouped stripe g r)
    (hfree : ∀ x, Takes q x → (g.board.bigTasks x).hasTask = false) (hq : q.Within stripe p') :
    (g.put id p q rest).board.threadPools r = g.board.threadPools r ∧
      (g.put id p q rest).parent r = g.parent r := by
  cases q with
  | small => exact ⟨rfl, rfl⟩
  | big a b task =>
    have hne : r ≠ a := by
      rintro rfl
      have hroot := h.takes_root hfree le_rfl
        (Nat.lt_add_of_pos_right (lt_of_lt_of_le Nat.zero_lt_two h.two))
      exact hroot ⟨le_rfl, lt_of_lt_of_le (Nat.lt_add_of_pos_right Nat.zero_lt_two) hq.1.2.1⟩
    exact ⟨Function.update_of_ne hne _ _, Function.update_of_ne hne _ _⟩

theorem Grouped.put (h : Grouped stripe g r)
    (hfree : ∀ x, Takes q x → (g.board.bigTasks x).hasTask = false) (hq : q.Within stripe p') :
    Grouped stripe (g.put id p q rest) r :=
  h.frame (h.frame_put hfree hq).1 (h.frame_put hfree hq).2 fun _ hx hx' =>
  bigTasks_put (h.takes_root hfree hx hx')

/-- The threads to which a big task has been queued are a group. -/
theorem grouped_big {a b : ℕ} {task : Task} (hq : (Queued.big a b task).Within stripe p) :
    Grouped stripe (g.put id p (.big a b task) rest) a := by
  obtain ⟨⟨ha, hab, hb⟩, hle, hbegin, hstop⟩ := hq
  have hpool : (g.put id p (.big a b task) rest).board.threadPools a = b - a :=
    Function.update_self _ _ _
  have hparent : (g.put id p (.big a b task) rest).parent a = p := Function.update_self _ _ _
  have hentry : ∀ i < b - a, (g.put id p (.big a b task) rest).board.bigTasks (a + i) =
      ⟨task.begin, task.stop, i, a, task.inInputArray, true⟩ := fun i hi =>
    (if_pos ⟨Nat.le_add_right a i, by omega⟩).trans (by rw [Nat.add_sub_cancel_left])
  have ha' := hentry 0 (by omega)
  rw [Nat.add_zero] at ha'
  refine ⟨by omega, fun i hi => ?_, ?_, ?_, ?_, ?_⟩
  · rw [hpool] at hi
    rw [hentry i hi, ha']
  · rw [ha']
    exact hle
  · rw [ha']
    exact hbegin
  · rw [ha', hpool]
    exact hstop.trans (by omega)
  · rw [hparent, hpool]
    exact ⟨ha, by omega⟩

/-- A thread calls `queueTasks`, after threads of which none belongs to another group. -/
theorem Inv.enter (h : Inv stripe t g) (hs : g.started = true) (hp : p.Placed stripe)
    (hle : p.id + p.taskNumThreads ≤ t)
    (hwhole : ∀ x, p.id ≤ x → x < p.id + p.taskNumThreads → (g.board.bigTasks x).hasTask = true →
      (g.board.bigTasks x).rootThread = p.id)
    (hroot : (g.board.bigTasks p.id).hasTask = true → g.board.threadPools p.id = p.taskNumThreads)
    (hothers : ∀ id' p' rest', g.queueing id' = some (p', rest') → ∀ q' ∈ rest', ∀ x, p.id ≤ x →
      x < p.id + p.taskNumThreads → ¬ Takes q' x)
    {eq : Bool} {nb : ℕ} {bss : ℕ → ℕ} (hb : BucketBounds eq nb (p.task.stop - p.task.begin) bss) :
    Inv stripe t (g.enter cfg stripe p bss nb eq) := by
  have hwithin : ∀ q ∈ queueTasks cfg stripe p.id p.taskNumThreads
      (p.task.stop - p.task.begin) p.task.inInputArray
      p.task.begin bss nb eq, q.Within stripe p := queueTasks_within hp hb
  have htakes : ∀ {q : Queued} {x : ℕ}, q.Within stripe p → Takes q x → p.id ≤ x ∧
      x < p.id + p.taskNumThreads := by
    intro q x hq hx
    cases q with
    | small => exact hx.elim
    | big a b task => exact ⟨hq.1.1.trans hx.1, hx.2.trans_le hq.1.2.2⟩
  have hapart : ∀ id' p' rest', g.queueing id' = some (p', rest') →
    ∀ q' ∈ rest', ∀ q : Queued, q.Within stripe p →
      q.Apart q' := fun id' p' rest' hq' q' hmem q hqp =>
    apart_of_not_takes hqp (hothers id' p' rest' hq' q' hmem)
    ((h.queues id' p' rest' hq').within q' hmem)
  refine ⟨fun x hx => ?_, fun id' p' rest' hq' => ?_,
    fun id₁ id₂ p₁ p₂ rest₁ rest₂ hne h₁ h₂ q₁ hq₁ q₂ hq₂ => ?_,
    h.small, fun hf => ?_⟩
  · obtain ⟨hout, hx⟩ := hasTask_reset hx
    obtain ⟨hle', hlt, hlet, hgroup⟩ := h.member x hx
    have hsame : (g.enter cfg stripe p bss nb eq).board.bigTasks x = g.board.bigTasks x :=
      bigTasks_reset hout
    rw [hsame]
    refine ⟨hle', hlt, hlet, hgroup.frame rfl rfl fun y hy hy' => bigTasks_reset fun hin => hout ?_⟩
    have hytask := hgroup.hasTask hy hy'
    have hroot' := hwhole y hin.1 hin.2 (by rw [hytask])
    rw [hytask] at hroot'
    have htask := hgroup.hasTask le_rfl
      (Nat.lt_add_of_pos_right (lt_of_lt_of_le Nat.zero_lt_two hgroup.two))
    dsimp only at hroot'
    rw [hroot'] at hle' hlt htask
    rw [hroot (by rw [htask])] at hlt
    exact ⟨hle', hlt⟩
  · by_cases hid : id' = p.id
    · subst hid
      rw [queueing_enter, if_pos rfl] at hq'
      obtain ⟨rfl, rfl⟩ := Prod.mk.inj (Option.some.inj hq')
      exact ⟨rfl, hle, hwithin, queueTasks_apart hb, fun q hq x hx =>
        hasTask_reset_of (.inr (htakes (hwithin q hq) hx))⟩
    · rw [queueing_enter, if_neg hid] at hq'
      obtain ⟨hid', hle', hwithin', hapart', hfree⟩ := h.queues id' p' rest' hq'
      exact ⟨hid', hle', hwithin', hapart',
        fun q hq x hx => hasTask_reset_of (.inl (hfree q hq x hx))⟩
  · rw [queueing_enter] at h₁ h₂
    split_ifs at h₁ h₂ with hid₁ hid₂ hid₂
    · exact absurd (hid₁.trans hid₂.symm) hne
    · obtain ⟨rfl, rfl⟩ := Prod.mk.inj (Option.some.inj h₁)
      exact hapart id₂ p₂ rest₂ h₂ q₂ hq₂ q₁ (hwithin q₁ hq₁)
    · obtain ⟨rfl, rfl⟩ := Prod.mk.inj (Option.some.inj h₂)
      exact (hapart id₁ p₁ rest₁ h₁ q₁ hq₁ q₂ (hwithin q₂ hq₂)).symm
    · exact h.apart id₁ id₂ p₁ p₂ rest₁ rest₂ hne h₁ h₂ q₁ hq₁ q₂ hq₂
  · exact absurd (hs.symm.trans hf) Bool.noConfusion

/-- A thread queues a bucket. -/
theorem Inv.put (h : Inv stripe t g) (hq : g.queueing id = some (p, q :: rest)) :
    Inv stripe t (g.put id p q rest) := by
  obtain ⟨hid, hle, hwithin, hapart, hfree⟩ := h.queues id p _ hq
  have hqueueing : ∀ {id' p' rest'}, (g.put id p q rest).queueing id' = some (p', rest') →
      ∃ rest₀, g.queueing id' = some (p', rest₀) ∧ (∀ q' ∈ rest', q' ∈ rest₀ ∧ q.Apart q') ∧
        rest'.Sublist rest₀ := by
    intro id' p' rest' hq'
    by_cases hid' : id' = id
    · subst hid'
      rw [queueing_put, if_pos rfl] at hq'
      obtain ⟨rfl, rfl⟩ := Prod.mk.inj (Option.some.inj hq')
      exact ⟨_, hq, fun q' hq' => ⟨List.mem_cons_of_mem _ hq',
        List.rel_of_pairwise_cons hapart hq'⟩, List.sublist_cons_self _ _⟩
    · rw [queueing_put, if_neg hid'] at hq'
      exact ⟨_, hq', fun q' hmem => ⟨hmem,
        h.apart id id' p p' _ _ (Ne.symm hid') hq hq' q List.mem_cons_self q' hmem⟩,
        .refl _⟩
  have hqp : q.Within stripe p := hwithin q List.mem_cons_self
  have hfree' : ∀ x, Takes q x → (g.board.bigTasks x).hasTask = false := hfree q List.mem_cons_self
  refine ⟨fun x hx => ?_, fun id' p' rest' hq' => ?_,
    fun id₁ id₂ p₁ p₂ rest₁ rest₂ hne h₁ h₂ q₁ hq₁ q₂ hq₂ => ?_,
    fun e he => ?_, fun hf => ?_⟩
  · by_cases htakes : Takes q x
    · cases q with
      | small => exact htakes.elim
      | big a b task =>
        have hgroup : Grouped stripe (g.put id p (.big a b task) rest) a := grouped_big hqp
        have hpool : (g.put id p (.big a b task) rest).board.threadPools a = b - a :=
          Function.update_self _ _ _
        have hab := hqp.1.2.1
        have hb := hqp.1.2.2
        have hx' := htakes.2
        have hroot : ((g.put id p (.big a b task) rest).board.bigTasks x).rootThread = a := by
          rw [hgroup.hasTask htakes.1 (by omega)]
        rw [hroot, hpool]
        exact ⟨htakes.1, by omega, by omega, hgroup⟩
    · have hsame : (g.put id p q rest).board.bigTasks x = g.board.bigTasks x := bigTasks_put htakes
      rw [hsame] at hx ⊢
      obtain ⟨hle', hlt, hlet, hgroup⟩ := h.member x hx
      rw [(hgroup.frame_put hfree' hqp).1]
      exact ⟨hle', hlt, hlet, hgroup.put hfree' hqp⟩
  · obtain ⟨rest₀, hq₀, hmem, hsub⟩ := hqueueing hq'
    obtain ⟨hid', hle', hwithin', hapart', hfree₀⟩ := h.queues id' p' rest₀ hq₀
    refine ⟨hid', hle', fun q' hq' => hwithin' q' (hmem q' hq').1, hapart'.sublist hsub,
      fun q' hq' x hx => ?_⟩
    have hnot : ¬ Takes q x := Apart.not_takes (hmem q' hq').2.symm hx
    have hsame : (g.put id p q rest).board.bigTasks x = g.board.bigTasks x := bigTasks_put hnot
    rw [hsame]
    exact hfree₀ q' (hmem q' hq').1 x hx
  · obtain ⟨rest₃, h₃, hmem₁, -⟩ := hqueueing h₁
    obtain ⟨rest₄, h₄, hmem₂, -⟩ := hqueueing h₂
    exact h.apart id₁ id₂ p₁ p₂ rest₃ rest₄ hne h₃ h₄ q₁ (hmem₁ q₁ hq₁).1 q₂ (hmem₂ q₂ hq₂).1
  · cases q with
    | small thread task =>
      rcases List.mem_cons.mp he with rfl | he
      · exact hqp
      · exact h.small e he
    | big => exact h.small e he
  · exact absurd (hq.symm.trans ((h.fresh hf).2 id)) (Option.some_ne_none _)

/-- A thread returns from `queueTasks`. -/
theorem Inv.leave (h : Inv stripe t g) (hs : g.started = true) : Inv stripe t (g.leave id) := by
  have hqueueing : ∀ {id' p' rest'}, (g.leave id).queueing id' = some (p', rest') →
      g.queueing id' = some (p', rest') := by
    intro id' p' rest' hq
    rw [Groups.leave] at hq
    dsimp only at hq
    rw [Function.update_apply] at hq
    split_ifs at hq
    exact hq
  refine ⟨fun x hx => ?_, fun id' p' rest' hq => ?_, fun id₁ id₂ p₁ p₂ rest₁ rest₂ hne h₁ h₂ =>
    h.apart id₁ id₂ p₁ p₂ rest₁ rest₂ hne (hqueueing h₁) (hqueueing h₂), h.small,
    fun hf => absurd (hs.symm.trans hf) Bool.noConfusion⟩
  · obtain ⟨hle, hlt, hlet, hgroup⟩ := h.member x hx
    exact ⟨hle, hlt, hlet, hgroup.frame rfl rfl fun _ _ _ => rfl⟩
  · obtain ⟨hid, hle, hwithin, hapart, hfree⟩ := h.queues id' p' rest' (hqueueing hq)
    exact ⟨hid, hle, hwithin, hapart, hfree⟩

theorem Inv.started (h : Inv stripe t g) (hq : g.queueing id = some (p, rest)) :
    g.started = true := by
  by_contra hs
  exact Option.some_ne_none _ (hq.symm.trans ((h.fresh (Bool.eq_false_iff.mpr hs)).2 id))

theorem Inv.grouped (h : Inv stripe t g) (hr : g.Outstanding r) :
    Grouped stripe g r ∧ r + g.board.threadPools r ≤ t := by
  obtain ⟨-, -, hlet, hgroup⟩ := h.member r hr.1
  rw [hr.2] at hlet hgroup
  exact ⟨hgroup, hlet⟩

/-- **Every step keeps the invariant.** -/
theorem Inv.step (ht : 1 ≤ t) (h : Inv (width n t) t g) (hstep : Step cfg n t g g') :
    Inv (width n t) t g' := by
  cases hstep with
  | first hg hb =>
    obtain ⟨hnone, hq⟩ := h.fresh hg
    have hstart : Inv (width n t) t { g with started := true } := by
      refine ⟨fun x hx => ?_, fun id p rest hq' => ?_, fun id id' p p' rest rest' _ hq' => ?_,
        h.small, fun hf => nomatch hf⟩
      · exact absurd ((hnone x).symm.trans hx) Bool.noConfusion
      · exact absurd (hq'.symm.trans (hq id)) (Option.some_ne_none _)
      · exact absurd (hq'.symm.trans (hq id)) (Option.some_ne_none _)
    split_ifs
    · exact hstart
    · have hplaced : Parent.Placed (width n t) ⟨0, t, 0, n, true⟩ :=
        ⟨ht, Nat.zero_le n, Nat.zero_le _, (nearest_le ht).trans (Nat.zero_add t).ge⟩
      refine hstart.enter rfl hplaced (Nat.zero_add t).le (fun x _ _ hx => ?_) (fun hx => ?_)
        (fun id' p' rest' hq' => ?_) hb
      · exact absurd ((hnone x).symm.trans hx) Bool.noConfusion
      · exact absurd ((hnone 0).symm.trans hx) Bool.noConfusion
      · exact absurd (hq'.symm.trans (hq id')) (Option.some_ne_none _)
  | @partitioned id _ _ _ hg hq hb =>
    obtain ⟨hgroup, hlet⟩ := h.grouped hg
    have hs : g.started = true := by
      by_contra hs
      exact absurd (((h.fresh (Bool.eq_false_iff.mpr hs)).1 id).symm.trans hg.1) Bool.noConfusion
    have htask : ∀ x, id ≤ x → x < id + g.board.threadPools id →
        (g.board.bigTasks x).hasTask = true ∧ (g.board.bigTasks x).rootThread = id := by
      intro x hx hx'
      rw [hgroup.hasTask hx hx']
      exact ⟨rfl, rfl⟩
    have hplaced : (g.taskOf id).Placed (width n t) :=
      ⟨le_trans one_le_two hgroup.two, hgroup.le, hgroup.begin.ge, hgroup.stop.le⟩
    refine h.enter hs hplaced hlet (fun x hx hx' _ => (htask x hx hx').2) (fun _ => rfl)
      (fun id' p' rest' hq' q' hmem x hx hx' htakes => ?_) hb
    have hfree := (h.queues id' p' rest' hq').free q' hmem x htakes
    exact absurd (hfree.symm.trans (htask x hx hx').1) Bool.noConfusion
  | put hq => exact h.put hq
  | leave hq => exact h.leave (h.started hq)

theorem Reachable.inv (ht : 1 ≤ t) (h : g.Reachable cfg n t) : Inv (width n t) t g := by
  obtain ⟨g₀, hstart, hrun⟩ := h
  induction hrun with
  | refl => exact hstart.inv
  | tail _ hstep ih => exact ih.step ht hstep

/-! ### Nested and disjoint groups -/

/-- The groups of threads of outstanding big tasks, and where small tasks are queued. -/
structure Nested (t : ℕ) (g : Groups) : Prop where
  /-- A thread with a task is a thread of one group. -/
  member : ∀ x, (g.board.bigTasks x).hasTask = true → ∃ r, g.Outstanding r ∧ r ≤ x ∧
    x < r + g.board.threadPools r
  /-- Groups have no thread in common. -/
  disjoint : ∀ r r', r ≠ r' → g.Outstanding r → g.Outstanding r' →
    r + g.board.threadPools r ≤ r' ∨ r' + g.board.threadPools r' ≤ r
  two : ∀ r, g.Outstanding r → 2 ≤ g.board.threadPools r
  /-- The threads of a group are numbered, the first one owns the thread pool, and all are told the
  same. -/
  threads : ∀ r, g.Outstanding r → ∀ i < g.board.threadPools r, g.board.bigTasks (r + i) =
    ⟨(g.board.bigTasks r).begin, (g.board.bigTasks r).stop, i, r,
      (g.board.bigTasks r).inInputArray, true⟩
  /-- There are that many threads. -/
  exist : ∀ r, g.Outstanding r → r + g.board.threadPools r ≤ t
  /-- A group is part of the group that has queued its task. -/
  nested : ∀ r, g.Outstanding r →
    (g.parent r).id ≤ r ∧ r + g.board.threadPools r ≤ (g.parent r).id + (g.parent r).taskNumThreads
  /-- A small task is queued to a thread of the group that queues it. -/
  small : ∀ p thread task, (p, thread, task) ∈ g.small → p.id ≤ thread ∧
    thread < p.id + p.taskNumThreads

/-- **Groups of threads stay nested and disjoint.** -/
theorem groups_nested (ht : 2 ≤ t) (h : g.Reachable cfg n t) : g.Nested t := by
  have hinv := h.inv (le_trans one_le_two ht)
  have hroot : ∀ r, g.Outstanding r → (g.board.bigTasks r).rootThread = r := fun r hr => hr.2
  refine ⟨fun x hx => ?_, fun r r' hne hr hr' => ?_, fun r hr => (hinv.grouped hr).1.two,
    fun r hr => (hinv.grouped hr).1.entries, fun r hr => (hinv.grouped hr).2,
    fun r hr => (hinv.grouped hr).1.nested, fun p thread task he => hinv.small _ he⟩
  · obtain ⟨hle, hlt, -, hgroup⟩ := hinv.member x hx
    have htask := hgroup.hasTask le_rfl
      (Nat.lt_add_of_pos_right (lt_of_lt_of_le Nat.zero_lt_two hgroup.two))
    exact ⟨_, ⟨by rw [htask], by rw [htask]⟩, hle, hlt⟩
  · by_contra hnot
    obtain ⟨hlt, hlt'⟩ := not_or.mp hnot
    obtain ⟨hgroup, -⟩ := hinv.grouped hr
    obtain ⟨hgroup', -⟩ := hinv.grouped hr'
    have htwo := hgroup.two
    have htwo' := hgroup'.two
    have hx := hgroup.hasTask (le_max_left r r') (by omega)
    have hx' := hgroup'.hasTask (le_max_right r r') (by omega)
    exact hne (congrArg BigTask.rootThread (hx.symm.trans hx'))

/-- Nothing has been done yet. -/
def idle : Groups :=
  ⟨⟨fun _ => ⟨0, 0, 0, 0, true, false⟩, fun _ => 0⟩, false, fun _ => none,
    fun _ => ⟨0, 0, 0, 0, true⟩, []⟩

/-- Four threads have partitioned 8192 elements into two buckets of the same size; there are two
groups now. -/
def twoGroups : Groups :=
  ((enter { idle with started := true } defaultConfig 2048 ⟨0, 4, 0, 8192, true⟩
    (4096 * ·) 2 false).put 0
    ⟨0, 4, 0, 8192, true⟩ (.big 2 4 ⟨4096, 8192, false⟩) [.big 0 2 ⟨0, 4096, false⟩]).put 0
      ⟨0, 4, 0, 8192, true⟩ (.big 0 2 ⟨0, 4096, false⟩) []

theorem twoGroups_nested : twoGroups.Nested 4 ∧ twoGroups.Outstanding 0 ∧
    twoGroups.Outstanding 2 := by
  have hstart : idle.Start := ⟨rfl, fun _ => rfl, fun _ => rfl, rfl⟩
  have hb : BucketBounds false 2 8192 (fun i => 4096 * i) :=
    ⟨by decide, (fun h => nomatch h), rfl, rfl, fun b _ => Nat.mul_le_mul_left _ (Nat.le_succ b)⟩
  have hrun : Relation.ReflTransGen (Step defaultConfig 8192 4) idle twoGroups :=
    ((Relation.ReflTransGen.single (.first rfl hb)).tail (.put rfl)).tail (.put rfl)
  exact ⟨groups_nested (by decide) ⟨idle, hstart, hrun⟩, by decide, by decide⟩

end Groups

end Ps4o
