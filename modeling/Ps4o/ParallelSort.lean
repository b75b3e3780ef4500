import Ps4o.BigTasks
import Ps4o.ParallelPartition
import Ps4o.SmallTasks

/-!
# The parallel sort

What the threads do from the first partitioning to the end of `processSmallTasks`
(`parallelSortPrimary`, `parallelSortSecondary`, `processBigTasks` and `processSmallTasks` in
`parallel.hpp`): all of them partition the whole range; groups of them partition big tasks, each
when all of its threads have come to it; a thread that has no big task any more turns to small
tasks.

## The model

A state has the memory, what the threads share, and where each of them is. Every command on memory
is a step, and so is everything that a thread does with what it shares with others. The steps are
those of the parts, which are in modules of their own: of a team that partitions (`Team.Step`), of a
thread that queues buckets (`Groups`), of a thread at the scheduler (`Thread.step`), and of a
program. A team waits until all of its threads have come, and its threads wait until its buckets
have been queued. What is on the stack of a thread that starts to sort a big task with others has no
splitters yet; whatever else is in it is arbitrary.
-/

namespace Ps4o

open Ps4o.Program Ps4o.Storage Ps4o.Order Ps4o.Order.Stripes

variable {A α : Type}

/-! ### The code -/

/-- The threads partition a task (`parallelPartitionPrimary` and `parallelPartitionSecondary`). -/
def partitionTask (comp : α → α → Bool) (cfg : Config)
    (sort : Ptr A → ℕ → Ptr A → ℕ → Bool → Sorter α → Act A α (Sorter α)) (begin tmp : Ptr A)
    (oracle : ℕ) (task : Task) {k : ℕ} (one : Fin k) (shared : SharedData α)
    (sorter : Fin k → Sorter α) : SortingTeam A α k :=
  let size := task.stop - task.begin
  let isLastLevel : Bool := decide (size ≤ cfg.kSingleLevelThreshold)
  if task.inInputArray then
    partitionParallel comp cfg (begin + task.begin) size (tmp + task.begin)
      (oracle + task.begin) isLastLevel task.inInputArray sort one shared sorter
  else
    partitionParallel comp cfg (tmp + task.begin) size (begin + task.begin)
      (oracle + task.begin) isLastLevel task.inInputArray sort one shared sorter

/-- A team at work on a task. -/
structure TeamWork (A α : Type) where
  /-- The task. -/
  parent : Parent
  /-- What is left to do. -/
  team : SortingTeam A α parent.taskNumThreads

/-- A thread. -/
structure SortThread (A α : Type) where
  /-- Where it is in `processSmallTasks`, if it has come there. -/
  pc : Option (Pc Task)
  /-- `local_.seq_task_queue`. -/
  queue : PrivateQueue Task
  /-- Its sorter. -/
  sorter : Sorter α
  /-- What is left of the task that it executes. -/
  call : Option (Act A α (Sorter α × PrivateQueue Task))

/-- The state of the parallel sort, with `t` threads. -/
structure ParallelSort (A α : Type) (t : UInt64) where
  /-- The arrays and the oracle. -/
  mem : Mem A α
  /-- Big tasks, and the threads that queue buckets. -/
  groups : Groups
  /-- For each thread that owns a thread pool, the team that is at work. -/
  team : Fin t.toNat → Option (TeamWork A α)
  /-- `shared_->scheduler`. -/
  scheduler : Scheduler Task
  /-- The threads. -/
  thread : Fin t.toNat → SortThread A α

/-- A thread is one of those of a task. -/
def Parent.Involves (p : Parent) (x : ℕ) : Prop := p.id ≤ x ∧ x < p.id + p.taskNumThreads

/-- No thread of a task is without elements. -/
def Parent.Filled (p : Parent) : Prop :=
  ∀ i < p.taskNumThreads, first (p.task.stop - p.task.begin) p.taskNumThreads i <
    first (p.task.stop - p.task.begin) p.taskNumThreads (i + 1)

/-- The whole range, which all threads partition. -/
abbrev wholeRange (t : UInt64) (n : ℕ) : Parent := ⟨0, t.toNat, ⟨0, n, true⟩⟩

/-- `seq_task_queue.emplace`, for the thread that is to get a small task. -/
def Queued.emplaceInto (q : Queued) (x : ℕ) (queue : PrivateQueue Task) : PrivateQueue Task :=
  match q with
  | .small thread task => if x = thread then queue.emplace task else queue
  | .big _ _ _ => queue

namespace ParallelSort

variable {t : UInt64}

/-- A thread partitions a task with others, or waits until the buckets of one have been queued. -/
def Busy (s : ParallelSort A α t) (x : ℕ) : Prop :=
  (∃ r w, s.team r = some w ∧ w.parent.Involves x) ∨ ∃ r p rest, s.groups.queueing r =
  some (p, rest) ∧ p.Involves x

/-- A thread is at the head of the loop in `processBigTasks`. -/
structure AtHead (s : ParallelSort A α t) (x : Fin t.toNat) : Prop where
  started : s.groups.started = true
  pc : (s.thread x).pc = none
  free : ¬ s.Busy x

/-- A thread changes. -/
def setThread (s : ParallelSort A α t) (x : Fin t.toNat) (th : SortThread A α) :
    ParallelSort A α t :=
  { s with thread := Function.update s.thread x th }

/-- A team comes, changes or goes. -/
def setTeam (s : ParallelSort A α t) (r : Fin t.toNat) (w : Option (TeamWork A α)) :
    ParallelSort A α t :=
  { s with team := Function.update s.team r w }

section
variable {s : ParallelSort A α t} {x y : Fin t.toNat} {th : SortThread A α}
  {w : Option (TeamWork A α)}

@[simp] theorem thread_setThread : (s.setThread x th).thread x = th := Function.update_self _ _ _

theorem thread_setThread_of_ne (h : y ≠ x) : (s.setThread x th).thread y = s.thread y :=
  Function.update_of_ne h _ _

@[simp] theorem team_setTeam : (s.setTeam x w).team x = w := Function.update_self _ _ _

theorem team_setTeam_of_ne (h : y ≠ x) : (s.setTeam x w).team y = s.team y :=
  Function.update_of_ne h _ _

end

/-- When the whole range has been partitioned: its buckets are queued, if this is not the last
level. -/
def queueWhole (g : Groups) (cfg : Config) (n : ℕ) (t : UInt64) (bss : ℕ → ℕ) (nb : ℕ) (eq : Bool) :
    Groups :=
  if n ≤ cfg.kSingleLevelThreshold then { g with started := true }
  else Groups.enter { g with started := true } cfg (width n t.toNat) (wholeRange t n) bss nb eq

section
variable [DecidableEq A] (comp : α → α → Bool) (cfg : Config) (begin tmp : Ptr A) (oracle n : ℕ)

/-- A step of one thread, or of several that meet. -/
inductive Step : ParallelSort A α t → ParallelSort A α t → Prop
  /-- The threads begin with the whole range. Thread `one` is the first one to reach the
  sampling. -/
  | start {s : ParallelSort A α t} {r one : Fin t.toNat} {shared : SharedData α}
    (hs : s.groups.started = false)
      (hteam : ∀ r, s.team r = none) (hr : r.val = 0) (hshared : shared.classifier.Empty) :
      Step s (s.setTeam r (some ⟨wholeRange t n,
        partitionTask comp cfg (sequential comp cfg n) begin tmp oracle ⟨0, n, true⟩ one
        shared fun x => (s.thread x).sorter⟩))
  /-- All threads of a big task have come to it. It is done with the default configuration. -/
  | join {s : ParallelSort A α t} {r : Fin t.toNat} {one : Fin (s.groups.taskOf r).taskNumThreads}
    {shared : SharedData α}
      {sorter : Fin (s.groups.taskOf r).taskNumThreads → Sorter α} (hr : s.groups.Outstanding r)
      (hhead : ∀ x : Fin t.toNat, (s.groups.taskOf r).Involves x → s.AtHead x)
        (hshared : shared.classifier.Empty)
      (hsorter : ∀ i, (sorter i).data.classifier.Empty) :
      Step s (s.setTeam r (some ⟨s.groups.taskOf r, partitionTask comp defaultConfig
        (sequential comp defaultConfig n) begin tmp
        oracle (s.groups.taskOf r).task one shared sorter⟩))
  /-- A team goes on. -/
  | run {s : ParallelSort A α t} {r : Fin t.toNat} {p : Parent}
    {team team' : SortingTeam A α p.taskNumThreads}
      {mem' : Mem A α} (hw : s.team r = some ⟨p, team⟩)
        (hstep : Team.Step (copies A α) (team, s.mem) (team', mem')) :
      Step s { s.setTeam r (some ⟨p, team'⟩) with mem := mem' }
  /-- The whole range has been partitioned. -/
  | first {s : ParallelSort A α t} {r : Fin t.toNat} {eq : Bool} {bss : ℕ → ℕ} {nb : ℕ}
      {sorter : Fin t.toNat → Sorter α}
      (hs : s.groups.started = false)
        (hw : s.team r = some ⟨wholeRange t n, .done (eq, bss, nb, sorter)⟩) :
      Step s { s.setTeam r none with
        groups := queueWhole s.groups cfg n t bss nb eq
        thread := fun x => { s.thread x with sorter := sorter x } }
  /-- A big task has been partitioned. -/
  | partitioned {s : ParallelSort A α t} {r : Fin t.toNat} {p : Parent}
      {eq : Bool} {bss : ℕ → ℕ} {nb : ℕ}
      {sorter : Fin p.taskNumThreads → Sorter α} (hs : s.groups.started = true)
      (hw : s.team r = some ⟨p, .done (eq, bss, nb, sorter)⟩) :
      Step s { s.setTeam r none with groups := s.groups.enter cfg (width n t.toNat) p bss nb eq }
  /-- A thread queues a bucket. -/
  | put {s : ParallelSort A α t} {r : Fin t.toNat} {p : Parent} {q : Queued} {rest : List Queued}
      (hq : s.groups.queueing r = some (p, q :: rest)) :
      Step s { s with
        groups := s.groups.put r p q rest
        thread := fun x => { s.thread x with queue := q.emplaceInto x (s.thread x).queue } }
  /-- It has queued all buckets. -/
  | leave {s : ParallelSort A α t} {r : Fin t.toNat} {p : Parent}
      (hq : s.groups.queueing r = some (p, [])) :
      Step s { s with groups := s.groups.leave r }
  /-- A thread has no big task, and calls `processSmallTasks`. -/
  | processSmallTasks {s : ParallelSort A α t} {x : Fin t.toNat} (hx : s.AtHead x)
      (hnone : (s.groups.board.bigTasks x).hasTask = false) :
      Step s (s.setThread x { s.thread x with pc := some .getJob })
  /-- A step of a thread in `getJob` or `offerJob`. -/
  | schedule {s : ParallelSort A α t} {x : Fin t.toNat} {pc : Pc Task} {e : Event Task}
      {c : Scheduler Task} {th : Thread Task}
      (hpc : (s.thread x).pc = some pc) (hne : ∀ j, pc ≠ .execute j)
      (hstep : Thread.step t none s.scheduler ⟨pc, (s.thread x).queue⟩ = some (e, c, th)) :
      Step s { s.setThread x { s.thread
        x with pc := some th.pc, queue := th.queue } with scheduler := c }
  /-- A thread begins with a small task. -/
  | call {s : ParallelSort A α t} {x : Fin t.toNat} {j : Task}
      (hpc : (s.thread x).pc = some (.execute j)) (hcall : (s.thread x).call = none) :
      Step s (s.setThread x { s.thread
        x with call := some (processTask comp cfg (sequential comp cfg n) begin tmp oracle j
        (s.thread x).queue (s.thread x).sorter) })
  /-- It does a command. -/
  | exec {s : ParallelSort A α t} {x : Fin t.toNat} {o : Cmd A α}
      {k : o.Ans → Act A α (Sorter α × PrivateQueue Task)} {c : ℕ}
      {a : o.Ans} {mem' : Mem A α} (hcall : (s.thread x).call = some (.cmd o k))
      (hexec : (copies A α).exec o c s.mem = some (a, mem')) :
      Step s { s.setThread x { s.thread x with call := some (k a) } with mem := mem' }
  /-- It is finished with it. -/
  | finish {s : ParallelSort A α t} {x : Fin t.toNat} {sorter : Sorter α}
      {queue : PrivateQueue Task} (hcall : (s.thread x).call = some (.ret (sorter, queue))) :
      Step s (s.setThread x ⟨some .getJob, queue, sorter, none⟩)

/-- In the beginning there are no tasks, and no thread has done anything. -/
structure Start (xs : List α) (s : ParallelSort A α t) : Prop where
  groups : s.groups.Start
  team : ∀ r, s.team r = none
  scheduler : s.scheduler = ⟨[], 0⟩
  thread : ∀ x, (s.thread x).pc = none ∧ (s.thread x).queue.jobs = [] ∧ (s.thread x).call = none ∧
    (s.thread x).sorter.data.classifier.Empty
  has : Has s.mem begin xs

end

end ParallelSort

/-! ### The work -/

/-- The task that a thread has got from `getJob`. -/
def SortThread.job (th : SortThread A α) : Option Task := th.pc.bind Pc.job

/-- The tasks of a thread that it has not begun with. -/
def SortThread.resting (th : SortThread A α) : List Task :=
  th.queue.jobs ++ if th.call.isNone then th.job.toList else []

/-- The task that it executes. -/
def SortThread.underWay (th : SortThread A α) : List Task :=
  if th.call.isNone then [] else th.job.toList

namespace ParallelSort

variable {t : UInt64}

/-- The whole range, before it is begun with. -/
def restingWhole (n : ℕ) (s : ParallelSort A α t) : Multiset Task :=
  if s.groups.started = false ∧ ∀ r, (s.team r).isNone then {⟨0, n, true⟩} else 0

/-- What a thread has yet to queue. -/
def restingBuckets (g : Groups) (r : ℕ) : List Task :=
  (g.queueing r).elim [] fun e => e.2.map Queued.task

/-- The big task of a group that has not begun with it. -/
def restingBig (s : ParallelSort A α t) (r : Fin t.toNat) : Multiset Task :=
  if s.groups.Outstanding r ∧ (s.team r).isNone then {(s.groups.taskOf r).task} else 0

/-- The tasks that nobody is partitioning: the whole range, those in the global queue, those of each
thread, those that are to be queued, and big tasks. -/
def resting (n : ℕ) (s : ParallelSort A α t) : Multiset Task :=
  s.restingWhole n + s.scheduler.mGlobQueue + ∑ x, ((s.thread x).resting : Multiset Task) +
    ∑ r : Fin t.toNat, (restingBuckets s.groups r : Multiset Task) + ∑ r, s.restingBig r

/-- The tasks that are being partitioned, by several threads or by one. -/
def underWay (s : ParallelSort A α t) : Multiset Task :=
  ∑ r, (s.team r).elim 0 (fun w => {w.parent.task}) + ∑ x, ((s.thread x).underWay : Multiset Task)

/-- The tasks that are outstanding. -/
def outstanding (n : ℕ) (s : ParallelSort A α t) : Multiset Task := s.resting n + s.underWay

/-- No team has a thread without elements. -/
def StripesFilled (s : ParallelSort A α t) : Prop := ∀ r w, s.team r = some w → w.parent.Filled

/-- All threads have returned from `processSmallTasks`. -/
def Done (s : ParallelSort A α t) : Prop := ∀ x, (s.thread x).pc = some .done

end ParallelSort

end Ps4o
