import Ps4o.ParallelThreads
import Ps4o.TasksUnderWay

/-!
# Tasks at rest and tasks under way

No part of the array is lost while it is sorted in parallel. Here it is counted: which tasks are at
rest, in some queue, and which are under way.

## The model

`running` are the tasks under way: for each thread, the task that its thread pool partitions, and
the task that it executes. A task has its part of both arrays and of the oracle to itself from the
moment it is begun with until its result is there; the buckets that it leaves are then on their way
to a queue, or big tasks.

## What is proved

* `sat_partitionTask`, `upholds_partitionTask` — a team divides its task; so does a thread on its
  own (`sat_processTask_split`).
* `resting_put` and its siblings — which tasks are at rest after a step.
-/

namespace Ps4o

open Ps4o.Program Ps4o.Storage Ps4o.Order Ps4o.Order.Stripes Ps4o.Order.Work

variable {A α : Type} [DecidableEq A]

/-! ### Partitioning a task -/

section
variable {comp : α → α → Bool} {cfg : Config} {begin tmp : Ptr A} {oracle n : ℕ} {task : Task}
  {xs : List α} {eq : Bool} {bss : ℕ → ℕ} {nb : ℕ} {m m' : Mem A α} {cur : ℕ → α}

omit [DecidableEq A] in
theorem Task.region_eq :
    task.region begin tmp oracle = workspace (task.source begin tmp + task.begin)
    (task.target begin tmp + task.begin) (oracle + task.begin) (task.stop - task.begin) := by
  rw [Task.region, Task.source, Task.target]
  split_ifs
  · rfl
  · exact workspace_swap _ _ _ _

omit [DecidableEq A] in
theorem Task.source_ne_target (harr : begin.arr ≠ tmp.arr) :
    (task.source begin tmp + task.begin).arr ≠ (task.target begin tmp + task.begin).arr := by
  rw [Task.source, Task.target]
  split_ifs
  · exact harr
  · exact harr.symm

/-- What is elsewhere does not matter for a task that has been partitioned. -/
theorem Task.Split.agree (h : task.Split comp cfg begin tmp xs eq bss nb m)
    (hxs : xs.length = task.stop - task.begin)
    (hm : (copies A α).AgreeOn (task.region begin tmp oracle) m m') :
    task.Split comp cfg begin tmp xs eq bss nb m' := by
  rw [Task.region_eq, ← hxs] at hm
  exact Partitioned.agree h hm

/-- **One thread partitions a task.** -/
theorem sat_processTask_split {queue : PrivateQueue Task} {s : Sorter α} (hc : StrictWeak comp)
    (hcfg : cfg.Sound) (harr : begin.arr ≠ tmp.arr)
    (hlarge : 2 * cfg.kBaseCaseSize < task.stop - task.begin) (hn : task.stop - task.begin ≤ n)
    (hs : s.data.classifier.Empty) (hm : task.InPlace begin tmp cur m) :
    Sat (copies A α) (task.region begin tmp oracle)
      (processTask comp cfg (sequential comp cfg n) begin tmp oracle task queue s) m fun r m' =>
        r.1.data.classifier.Empty ∧ ∃ eq bss nb, r.2 =
          (emplaced cfg task bss nb eq).foldl PrivateQueue.emplace queue ∧
          task.Split comp cfg begin tmp (task.elems cur) eq bss nb m' := by
  have hprocess : processTask comp cfg (sequential comp cfg n) begin tmp oracle task queue s =
      sequentialTask comp cfg (sequential comp cfg n) (task.source begin tmp)
      (task.target begin tmp) oracle task queue s := by
    rw [processTask, Task.source, Task.target]
    split_ifs <;> rfl
  have hsort : Sorts comp cfg false (task.stop - task.begin) (sequential (A := A) comp cfg n) :=
    (sat_sequential hc hcfg n).mono hn
  rw [hprocess, sequentialTask, Task.region_eq, sat_bind]
  refine (sat_partition_bits hc (Task.length_elems cur task) (hcfg.fits _ hlarge) hsort
    (Task.source_ne_target harr) hs hm.has).imp ?_
  rintro ⟨eq, bss, s'⟩ m' ⟨hs', hpart⟩
  exact ⟨hs', eq, bss, s'.numBuckets, rfl, hpart⟩

omit [DecidableEq A] in
/-- Where the threads that partition a task find its elements. -/
theorem partitionTask_eq (sort : Ptr A → ℕ → Ptr A → ℕ → Bool → Sorter α → Act A α (Sorter α))
    {k : ℕ} (one : Fin k) (shared : SharedData α) (sorter : Fin k → Sorter α) :
    partitionTask comp cfg sort begin tmp oracle task one shared sorter =
      partitionParallel comp cfg (task.source begin tmp + task.begin) (task.stop - task.begin)
        (task.target begin tmp + task.begin) (oracle + task.begin)
        (decide (task.stop - task.begin ≤ cfg.kSingleLevelThreshold)) task.inInputArray
          sort one shared sorter := by
  rw [partitionTask, Task.source, Task.target]
  split_ifs <;> rfl

section
variable {k : ℕ} {one : Fin k} {shared : SharedData α} {sorter : Fin k → Sorter α}
  (hc : StrictWeak comp) (hcfg : cfg.Sound) (harr : begin.arr ≠ tmp.arr)
  (hlarge : 2 * cfg.kBaseCaseSize < task.stop - task.begin) (hn : task.stop - task.begin ≤ n)
  (hcl : shared.classifier.Empty) (hs : ∀ i, (sorter i).data.classifier.Empty)
  (hm : task.InPlace begin tmp cur m)
include hc hcfg harr hlarge hn hcl hs hm

/-- **Several threads partition a task**, when all stripes are long enough. -/
theorem sat_partitionTask
    (hlast : first (task.stop - task.begin) k (k - 1) + cfg.kUnrollClassifier ≤
      task.stop - task.begin) :
    (partitionTask comp cfg (sequential comp cfg n) begin tmp oracle task one shared sorter).Sat
    (copies A α)
      (task.region begin tmp oracle) m fun r m' => (∀ i, (r.2.2.2 i).data.classifier.Empty) ∧
        task.Split comp cfg begin tmp (task.elems cur) r.1 r.2.1 r.2.2.1 m' := by
  rw [partitionTask_eq, Task.region_eq]
  exact sat_partitionParallel hc (Task.length_elems cur task) (hcfg.fits _ hlarge)
    ((sat_sequential hc hcfg n).mono hn) (Task.source_ne_target harr) hcl hs hlast hm.has

/-- **Several threads partition a task**, when all stripes have elements. -/
theorem upholds_partitionTask
    (hlast : first (task.stop - task.begin) k (k - 1) < task.stop - task.begin) :
    (partitionTask comp cfg (sequential comp cfg n) begin tmp oracle task one shared sorter).Upholds
    (copies A α)
      (task.region begin tmp oracle) m fun r m' => (∀ i, (r.2.2.2 i).data.classifier.Empty) ∧
        task.Split comp cfg begin tmp (task.elems cur) r.1 r.2.1 r.2.2.1 m' := by
  rw [partitionTask_eq, Task.region_eq]
  exact upholds_partitionParallel hc (Task.length_elems cur task) (hcfg.fits _ hlarge)
    ((sat_sequential hc hcfg n).mono hn) (Task.source_ne_target harr) hcl hs hlast hm.has

end

end

/-! ### Tasks that are being partitioned -/

section
variable (comp : α → α → Bool) (begin tmp : Ptr A) (oracle : ℕ) {t : UInt64}

/-- What a team does with its task. -/
def TeamWork.underWay (w : TeamWork A α) : UnderWay begin tmp oracle α where
  task := w.parent.task
  ok xs m := w.team.Upholds (copies A α) (w.parent.task.region begin tmp oracle) m fun r m' =>
    (∀ i, (r.2.2.2 i).data.classifier.Empty) ∧
      w.parent.task.Split comp defaultConfig begin tmp xs r.1 r.2.1 r.2.2.1 m'
  env _ _ _ hm h := h.env hm

/-- What a thread does with a task: it partitions it, and puts the buckets that are left into its
queue. -/
def Task.executed (task : Task) (queue : PrivateQueue Task)
    (p : Act A α (Sorter α × PrivateQueue Task)) : UnderWay begin tmp oracle α where
  task := task
  ok xs m := xs.length = task.stop - task.begin ∧ Sat (copies A α)
      (task.region begin tmp oracle) p m fun r m' =>
    r.1.data.classifier.Empty ∧ ∃ eq bss nb, r.2 = (emplaced defaultConfig task bss nb eq).foldl
      PrivateQueue.emplace queue ∧
      task.Split comp defaultConfig begin tmp xs eq bss nb m'
  env xs m m' hm h := by
    refine ⟨h.1, (h.2.local hm).imp ?_⟩
    rintro r m₂ ⟨m₁, ⟨hs, eq, bss, nb, hr, hsplit⟩, hagree⟩
    exact ⟨hs, eq, bss, nb, hr, hsplit.agree h.1 hagree⟩

/-- The task that a thread executes. -/
def SortThread.running (th : SortThread A α) : Option (UnderWay begin tmp oracle α) :=
  th.call.bind fun p => th.job.map fun j => j.executed comp begin tmp oracle th.queue p

/-- The tasks that are being partitioned. -/
def ParallelSort.running (s : ParallelSort A α t) :
    Fin t.toNat ⊕ Fin t.toNat → Option (UnderWay begin tmp oracle α)
  | .inl r => (s.team r).map (TeamWork.underWay comp begin tmp oracle)
  | .inr x => (s.thread x).running comp begin tmp oracle

end

namespace ParallelSort

variable {comp : α → α → Bool} {begin tmp : Ptr A} {oracle n : ℕ} {t : UInt64}
  {s s' : ParallelSort A α t} {r x : Fin t.toNat} {w : Option (TeamWork A α)} {th : SortThread A α}

theorem tasksOf_running :
    tasksOf begin tmp oracle (s.running comp begin tmp oracle) = s.underWay := by
  rw [tasksOf, Fintype.sum_sum_type, underWay]
  congr 1
  · refine Finset.sum_congr rfl fun r _ => ?_
    simp only [running]
    cases s.team r <;> rfl
  · refine Finset.sum_congr rfl fun x _ => ?_
    simp only [running, SortThread.running, SortThread.underWay]
    cases (s.thread x).call with
    | none => rfl
    | some p => cases (s.thread x).job <;> rfl

theorem running_setTeam : (s.setTeam r w).running comp begin tmp oracle =
    Function.update (s.running comp begin tmp oracle) (.inl r)
      (w.map (TeamWork.underWay comp begin tmp oracle)) := by
  refine funext fun i => ?_
  rcases i with r' | x
  · rcases eq_or_ne r' r with rfl | hne
    · simp only [running, team_setTeam, Function.update_self]
    · rw [Function.update_of_ne (fun h => hne (Sum.inl.inj h))]
      simp only [running, team_setTeam_of_ne hne]
  · rw [Function.update_of_ne Sum.inr_ne_inl]
    rfl

theorem running_setThread (mem : Mem A α) (scheduler : Scheduler Task) :
    ({ s.setThread x th with mem, scheduler } : ParallelSort A α t).running comp begin tmp oracle =
      Function.update (s.running comp begin tmp oracle) (.inr x)
        (th.running comp begin tmp oracle) := by
  refine funext fun i => ?_
  rcases i with r | y
  · rw [Function.update_of_ne Sum.inl_ne_inr]
    rfl
  · rcases eq_or_ne y x with rfl | hne
    · simp only [running, thread_setThread, Function.update_self]
    · rw [Function.update_of_ne (fun h => hne (Sum.inr.inj h))]
      simp only [running, thread_setThread_of_ne hne]

/-! ### Tasks at rest -/

section
variable {p : Parent} {q : Queued} {rest : List Queued} {eq : Bool} {nb : ℕ} {bss : ℕ → ℕ}
  {w w' : TeamWork A α}

omit [DecidableEq A] in
/-- One summand is larger. -/
theorem sum_eq_add {ι M : Type} [Fintype ι] [DecidableEq ι] [AddCommMonoid M] {f g : ι → M} {a : M}
    (i : ι) (hi : f i = a + g i) (hne : ∀ j, j ≠ i → f j = g j) : ∑ j, f j = a + ∑ j, g j := by
  rw [← Finset.add_sum_erase _ f (Finset.mem_univ i),
    ← Finset.add_sum_erase _ g (Finset.mem_univ i), hi, add_assoc,
    Finset.sum_congr rfl fun j hj => hne j (Finset.ne_of_mem_erase hj)]

omit [DecidableEq A] in
theorem restingWhole_started (hs : s.groups.started = true) : s.restingWhole n = 0 :=
  if_neg fun h => Bool.noConfusion (hs.symm.trans h.1)

omit [DecidableEq A] in
theorem restingWhole_team (hw : s.team r = some w) : s.restingWhole n = 0 :=
  if_neg fun h => by simpa [hw] using h.2 r

omit [DecidableEq A] in
/-- Before the whole range has been partitioned there are no big tasks. -/
theorem Teams.restingBig_eq (h : s.Teams n) (ht : 2 ≤ t.toNat) (hs : s.groups.started = false)
    (r : Fin t.toNat) : s.restingBig r = 0 :=
  if_neg fun ho => Bool.noConfusion ((((h.inv ht).fresh hs).1 r).symm.trans ho.1.1)

omit [DecidableEq A] in
/-- The whole range is begun with. -/
theorem resting_start (h : s.Teams n) (ht : 2 ≤ t.toNat) (hs : s.groups.started = false)
    (hteam : ∀ r, s.team r = none) :
    s.resting n = {⟨0, n, true⟩} + (s.setTeam r (some w)).resting n := by
  have hwhole : s.restingWhole n = {⟨0, n, true⟩} :=
    if_pos ⟨hs, fun r => by rw [hteam r, Option.isNone_none]⟩
  have hwhole' : (s.setTeam r (some w)).restingWhole n = 0 := restingWhole_team team_setTeam
  have hbig : ∀ r', s.restingBig r' = (s.setTeam r (some w)).restingBig r' := fun r' =>
    (h.restingBig_eq ht hs r').trans
      (if_neg fun ho => Bool.noConfusion ((((h.inv ht).fresh hs).1 r').symm.trans ho.1.1)).symm
  rw [resting, resting, hwhole, hwhole', Finset.sum_congr rfl fun r' _ => hbig r']
  simp only [setTeam]
  abel

omit [DecidableEq A] in
/-- A big task is begun with. -/
theorem resting_join (hs : s.groups.started = true) (hr : s.groups.Outstanding r)
    (hnone : s.team r = none) :
    s.resting n = {(s.groups.taskOf r).task} + (s.setTeam r (some w)).resting n := by
  have hwhole' : (s.setTeam r (some w)).restingWhole n = 0 := restingWhole_started hs
  have hbig : ∑ r', s.restingBig r' = {(s.groups.taskOf r).task} +
      ∑ r', (s.setTeam r (some w)).restingBig r' := by
    refine sum_eq_add r ?_ fun r' hne => ?_
    · rw [restingBig, if_pos ⟨hr, by rw [hnone, Option.isNone_none]⟩, restingBig, team_setTeam,
        if_neg fun h => Bool.noConfusion h.2, add_zero]
    · rw [restingBig, restingBig, team_setTeam_of_ne hne]
      rfl
  rw [resting, resting, restingWhole_started hs, hwhole', hbig]
  simp only [setTeam]
  abel

omit [DecidableEq A] in
/-- A team goes on. -/
theorem resting_run (hw : s.team r = some w) {mem : Mem A α} :
    ({ s.setTeam r (some w') with mem } : ParallelSort A α t).resting n = s.resting n := by
  have hnone : ∀ r', ((s.setTeam r (some w')).team r').isNone = (s.team r').isNone := fun r' => by
    rcases eq_or_ne r' r with rfl | hne
    · rw [team_setTeam, hw, Option.isNone_some, Option.isNone_some]
    · rw [team_setTeam_of_ne hne]
  simp only [resting, restingWhole, restingBig, hnone]
  rfl

omit [DecidableEq A] in
/-- The buckets of a task that have been queued are those that are left of it. -/
theorem emplaced_eq (cfg : Config) (stripe id k : ℕ) (task : Task) :
    (queueTasks cfg stripe id k (task.stop - task.begin)
    task.inInputArray task.begin bss nb eq).map Queued.task = emplaced cfg task bss nb eq := by
  rw [map_task_queueTasks, emplaced]

omit [DecidableEq A] in
/-- The whole range has been partitioned. -/
theorem resting_first (h : s.Teams n) (ht : 2 ≤ t.toNat) (hs : s.groups.started = false)
    (hw : s.team r = some w) (hr : r.val = 0) (thread : Fin t.toNat → SortThread A α)
    (hthread : ∀ x, (thread x).resting = (s.thread x).resting) :
    ({ s.setTeam r none with
        groups := queueWhole s.groups defaultConfig n t bss nb eq
        thread } : ParallelSort A α t).resting n = emplaced defaultConfig
        ⟨0, n, true⟩ bss nb eq + s.resting n := by
  obtain ⟨hnone, hqueueing⟩ := (h.inv ht).fresh hs
  have hnone' : ∀ x, ((queueWhole s.groups defaultConfig n t bss nb eq).board.bigTasks x).hasTask =
      false := fun x => by
    rw [queueWhole]
    split_ifs
    · exact hnone x
    · exact Groups.hasTask_reset_of (.inl (hnone x))
  have hstarted : (queueWhole s.groups defaultConfig n t bss nb eq).started = true := by
    rw [queueWhole]
    split_ifs <;> rfl
  have hbuckets : ∑ r' : Fin t.toNat,
      (restingBuckets (queueWhole s.groups defaultConfig n t bss nb eq) r' : Multiset Task) =
      emplaced defaultConfig ⟨0, n, true⟩ bss nb eq + ∑ r' : Fin t.toNat,
      (restingBuckets s.groups r' : Multiset Task) := by
    have hempty : ∀ r', restingBuckets s.groups r' = [] := fun r' => by
      rw [restingBuckets, hqueueing r', Option.elim_none]
    refine sum_eq_add r ?_ fun r' hne => ?_
    · rw [hempty, Multiset.coe_nil, add_zero, restingBuckets, queueWhole]
      split_ifs with hlast
      · rw [hqueueing, emplaced, if_pos (by exact hlast)]
        rfl
      · rw [Groups.queueing_enter, if_pos hr, Option.elim_some,
          ← emplaced_eq defaultConfig (width n t.toNat) 0 t.toNat]
    · rw [hempty, restingBuckets, queueWhole]
      split_ifs
      · rw [hqueueing]
        rfl
      · rw [Groups.queueing_enter, if_neg fun h => hne (Fin.ext (h.trans hr.symm)), hqueueing]
        rfl
  have hbig : ∀ r', ({ s.setTeam r none with
      groups := queueWhole s.groups defaultConfig n t bss nb eq
      thread } : ParallelSort A α t).restingBig r' = s.restingBig r' := fun r' =>
    (if_neg fun ho => Bool.noConfusion ((hnone' r').symm.trans ho.1.1)).trans
    (h.restingBig_eq ht hs r').symm
  rw [resting, resting, restingWhole_started hstarted, restingWhole_team hw, hbuckets,
    Finset.sum_congr rfl fun r' _ => hbig r']
  simp only [hthread, setTeam]
  abel

omit [DecidableEq A] in
/-- A big task has been partitioned. -/
theorem resting_partitioned (h : s.Teams n) (ht : 2 ≤ t.toNat) (hs : s.groups.started = true)
    (hw : s.team r = some w) : ({ s.setTeam r none with
        groups := s.groups.enter defaultConfig (width n t.toNat) w.parent bss nb eq } :
          ParallelSort A α t).resting n =
      emplaced defaultConfig w.parent.task bss nb eq + s.resting n := by
  obtain ⟨hout, hp, hq⟩ := h.big r w hw hs
  rw [hp]
  have hbuckets : ∑ r' : Fin t.toNat,
      (restingBuckets (s.groups.enter defaultConfig (width n t.toNat) (s.groups.taskOf r) bss nb
      eq) r' : Multiset Task) = emplaced defaultConfig (s.groups.taskOf r).task bss nb eq +
        ∑ r' : Fin t.toNat, (restingBuckets s.groups r' : Multiset Task) := by
    refine sum_eq_add r ?_ fun r' hne => ?_
    · have hid : r.val = (s.groups.taskOf r).id := rfl
      rw [restingBuckets, restingBuckets, hq, Groups.queueing_enter, if_pos hid, Option.elim_some,
        emplaced_eq, Option.elim_none, Multiset.coe_nil, add_zero]
    · have hid : ¬ r'.val = (s.groups.taskOf r).id := fun h => hne (Fin.ext h)
      rw [restingBuckets, restingBuckets, Groups.queueing_enter, if_neg hid]
  have hbig : ∀ r', ({ s.setTeam r none with
      groups := s.groups.enter defaultConfig (width n t.toNat) (s.groups.taskOf r) bss nb eq } :
        ParallelSort A α t).restingBig r' = s.restingBig r' := fun r' => by
    rw [restingBig, restingBig]
    simp only [(h.inv ht).outstanding_enter hout, Groups.taskOf_enter]
    rcases eq_or_ne r' r with rfl | hne
    · rw [if_neg fun h => h.1.2 rfl, if_neg fun h => by simpa [hw] using h.2]
    · have hne' : r'.val ≠ r.val := fun h => hne (Fin.ext h)
      simp only [team_setTeam_of_ne hne, hne', ne_eq, not_false_eq_true, and_true]
  rw [resting, resting, restingWhole_started (s := { s.setTeam r none with
    groups := s.groups.enter defaultConfig (width n t.toNat) (s.groups.taskOf r) bss nb eq }) hs,
      restingWhole_started hs, hbuckets,
    Finset.sum_congr rfl fun r' _ => hbig r']
  simp only [setTeam]
  abel

omit [DecidableEq A] in
/-- A bucket is queued. -/
theorem resting_put (h : s.Teams n) (ht : 2 ≤ t.toNat)
    (hq : s.groups.queueing r = some (p, q :: rest)) : ({ s with
        groups := s.groups.put r p q rest
        thread := fun x => { s.thread x with queue := q.emplaceInto x (s.thread x).queue } } :
          ParallelSort A α t).resting n =
      s.resting n := by
  have hqueues := (h.inv ht).queues r p _ hq
  have hs := (h.inv ht).started hq
  have hbuckets : ∑ r' : Fin t.toNat, (restingBuckets s.groups r' : Multiset Task) =
      {q.task} + ∑ r' : Fin t.toNat,
      (restingBuckets (s.groups.put r p q rest) r' : Multiset Task) := by
    refine sum_eq_add r ?_ fun r' hne => ?_
    · rw [restingBuckets, restingBuckets, hq, Groups.queueing_put, if_pos rfl, Option.elim_some,
        Option.elim_some, List.map_cons, ← Multiset.cons_coe, Multiset.singleton_add]
    · rw [restingBuckets, restingBuckets, Groups.queueing_put, if_neg fun h => hne (Fin.ext h)]
  set s' : ParallelSort A α t := { s with
    groups := s.groups.put r p q rest
    thread := fun x => { s.thread x with queue := q.emplaceInto x (s.thread x).queue } } with hs'
  have hrest : ∑ x, ((s'.thread x).resting : Multiset Task) + ∑ r', s'.restingBig r' =
      {q.task} + (∑ x, ((s.thread x).resting : Multiset Task) + ∑ r', s.restingBig r') := by
    have hout : ∀ r' : Fin t.toNat, s'.groups.Outstanding r' ↔ s.groups.Outstanding r' ∨
        ∃ b task, q = .big r' b task :=
      fun r' => hqueues.outstanding_put
    have hbig : ∀ r' : Fin t.toNat, (∀ b task, q ≠ .big r' b task) → s'.restingBig r' =
        s.restingBig r' := fun r' hne => by
      have hiff : s'.groups.Outstanding r' ↔ s.groups.Outstanding r' :=
        (hout r').trans (or_iff_left fun ⟨b, task, h⟩ => hne b task h)
      rw [restingBig, restingBig]
      by_cases ho : s.groups.Outstanding r'
      · have htask : s'.groups.taskOf r' = s.groups.taskOf r' := hqueues.taskOf_put ho
        simp only [hiff, htask]
        rfl
      · rw [if_neg fun h => ho (hiff.mp h.1), if_neg fun h => ho h.1]
    cases q with
    | small thread task =>
      obtain ⟨hle, hlt⟩ := hqueues.within _ List.mem_cons_self
      have hx : thread < t.toNat := hlt.trans_le hqueues.le
      rw [Finset.sum_congr rfl fun r' _ => hbig r' fun b task' heq =>
        Queued.noConfusion heq, ← add_assoc]
      refine congrArg (· + _) (sum_eq_add ⟨thread, hx⟩ ?_ fun y hne => ?_)
      · simp only [hs', Queued.emplaceInto, if_true, SortThread.resting, SortThread.job,
          PrivateQueue.jobs_emplace, Queued.task, ← Multiset.coe_add, Multiset.coe_singleton]
        abel
      · have hne' : ¬ y.val = thread := fun heq => hne (Fin.ext heq)
        simp only [hs', Queued.emplaceInto, if_neg hne']
    | big a b task =>
      obtain ⟨⟨ha, hab, hb⟩, -⟩ := hqueues.within _ List.mem_cons_self
      have hat : a < t.toNat := by
        have := hqueues.le
        omega
      have hnone : s.team ⟨a, hat⟩ = none := by
        refine Option.eq_none_iff_forall_ne_some.mpr fun w hw => ?_
        have hfree := hqueues.free _ List.mem_cons_self a ⟨le_rfl, by omega⟩
        exact Bool.noConfusion (hfree.symm.trans (h.big _ w hw hs).1.1)
      have hfree : ¬ s.groups.Outstanding a := fun ho =>
        Bool.noConfusion ((hqueues.free _ List.mem_cons_self a ⟨le_rfl, by omega⟩).symm.trans ho.1)
      rw [add_left_comm]
      refine congrArg (∑ x, ((s.thread x).resting : Multiset Task) + ·)
        (sum_eq_add ⟨a, hat⟩ ?_ fun r' hne => ?_)
      · have htask : (s'.groups.taskOf a).task = task := hqueues.taskOf_big
        have hbefore : s.restingBig ⟨a, hat⟩ = 0 := if_neg fun h => hfree h.1
        have hafter : s'.restingBig ⟨a, hat⟩ = {(s'.groups.taskOf a).task} :=
          if_pos ⟨(hout ⟨a, hat⟩).mpr (.inr ⟨b, task, rfl⟩), Option.isNone_iff_eq_none.mpr hnone⟩
        rw [hbefore, hafter, htask, add_zero]
        rfl
      · refine hbig r' fun b' task' heq => hne (Fin.ext ?_)
        exact (Queued.big.inj heq).1.symm
  have hwhole : s'.restingWhole n = s.restingWhole n := rfl
  rw [resting, resting, hwhole, hbuckets]
  calc _ = s.restingWhole n + s.scheduler.mGlobQueue +
        ∑ r' : Fin t.toNat, (restingBuckets (s.groups.put r p q rest) r' : Multiset Task) +
          (∑ x, ((s'.thread x).resting : Multiset Task) + ∑ r', s'.restingBig r') := by abel
    _ = _ := by rw [hrest]; abel

omit [DecidableEq A] in
/-- A thread has queued all buckets. -/
theorem resting_leave (hq : s.groups.queueing r = some (p, [])) :
    ({ s with groups := s.groups.leave r } : ParallelSort A α t).resting n = s.resting n := by
  have hbuckets : ∀ r' : Fin t.toNat, restingBuckets (s.groups.leave r) r' =
      restingBuckets s.groups r' := fun r' => by
    rw [restingBuckets, restingBuckets, Groups.leave]
    dsimp only
    rw [Function.update_apply]
    split_ifs with heq
    · rw [heq, hq]
      rfl
    · rfl
  have hbig : ∀ r', ({ s with groups := s.groups.leave r } : ParallelSort A α t).restingBig r' =
    s.restingBig r' := fun r' => rfl
  rw [resting, resting, Finset.sum_congr rfl fun r' _ => hbig r']
  simp only [hbuckets]
  rfl

omit [DecidableEq A] in
/-- A thread goes on with its tasks and those of the global queue. -/
theorem resting_setThread (th : SortThread A α) (mem : Mem A α) (scheduler : Scheduler Task)
    {a b : Multiset Task}
    (h : (scheduler.mGlobQueue : Multiset Task) + th.resting + a = s.scheduler.mGlobQueue +
    (s.thread x).resting + b) :
    ({ s.setThread x th with mem, scheduler } : ParallelSort A α t).resting n + a =
    s.resting n + b := by
  have hsum : ∑ y, (((s.setThread x th).thread y).resting : Multiset Task) + (s.thread x).resting =
      ∑ y, ((s.thread y).resting : Multiset Task) + th.resting :=
    sum_update s.thread (fun th => (th.resting : Multiset Task)) x th
  rw [resting, resting]
  refine add_right_cancel (b := ((s.thread x).resting : Multiset Task)) ?_
  calc _ = s.restingWhole n + scheduler.mGlobQueue +
          (∑ y, (((s.setThread x th).thread y).resting : Multiset Task) +
          (s.thread x).resting) + ∑ r : Fin t.toNat, (restingBuckets s.groups r : Multiset Task) +
          ∑ r, s.restingBig r + a := by
        have hwhole : ({ s.setThread x th with mem, scheduler } : ParallelSort A α t).restingWhole
          n = s.restingWhole n := rfl
        have hbig : ∀ r, ({ s.setThread x th with mem, scheduler } : ParallelSort A α t).restingBig
            r = s.restingBig r :=
          fun r => rfl
        rw [hwhole, Finset.sum_congr rfl fun r _ => hbig r]
        simp only [setThread]
        abel
    _ = s.restingWhole n + ∑ y, ((s.thread y).resting : Multiset Task) +
          ∑ r : Fin t.toNat, (restingBuckets s.groups r : Multiset Task) + ∑ r, s.restingBig r +
            (scheduler.mGlobQueue + th.resting + a) := by rw [hsum]; abel
    _ = _ := by rw [h]; abel

end

end ParallelSort

/-- A thread at the scheduler keeps its job until it executes it, or gets one. -/
theorem Thread.step_job {Job : Type} {mNumThreads : UInt64} {s c : Scheduler Job}
    {th th' : Thread Job} {e : Event Job} (h : th.step mNumThreads none s = some (e, c, th'))
    (hne : ∀ j, th.pc ≠ .execute j) :
    th'.pc.job.toList = e.returnedJobs ++ th.pc.job.toList ∧ e.emplacedJobs = [] := by
  obtain ⟨pc, q⟩ := th
  cases pc with
  | getJob =>
    simp only [Thread.step] at h
    split at h
    · obtain ⟨r, -, h⟩ := Option.map_eq_some_iff.mp h
      cases h
      exact ⟨rfl, rfl⟩
    · cases h
      exact ⟨rfl, rfl⟩
  | addJob j =>
    simp only [Thread.step] at h
    obtain ⟨r, -, h⟩ := Option.map_eq_some_iff.mp h
    cases h
    exact ⟨rfl, rfl⟩
  | execute j => exact absurd rfl (hne j)
  | done => cases h
  | signalIdle | signalBusy | signalIdleAgain =>
    cases h
    exact ⟨rfl, rfl⟩
  | tryPop | checkIdle | checkGlob | retryPop | offerJob | offerCheckIdle | offerCheckGlob =>
    simp only [Thread.step] at h
    split at h <;> cases h <;> exact ⟨rfl, rfl⟩

end Ps4o
