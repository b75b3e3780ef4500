import Mathlib.Tactic.IntervalCases
import Ps4o.BigTasks
import Ps4o.Synchronization

/-!
# The task loop

The loop in which the threads of the parallel in-place sort partition one big task after the other,
all of them together, and what they do with the small tasks that are left (`parallel.hpp`).

## The model

`TaskLoop` is what the threads share: the barrier (`Meeting`), the big tasks, the small ones, and
the index of the next small task; and for each thread where it is, and the members of its sorter
that say what it partitions. A thread takes one step at a time, and the threads take theirs in any
order. What a partition returns is arbitrary, as far as the bucket boundaries do not decrease; the
thread that builds the classifier sorts a sample, and leaves anything in its members. The records
`took`, `partitioned` and `begun` say what has happened; nothing reads them.
-/

namespace Ps4o.InPlace

/-! ### The code -/

/-- A subtask in the parallel algorithm. -/
structure ParallelTask where
  /-- Where it begins. -/
  begin : ℕ
  /-- Where it ends. -/
  stop : ℕ
  /-- How often it has been partitioned. -/
  level : ℕ
  deriving DecidableEq

/-- How many elements it has. -/
def ParallelTask.size (t : ParallelTask) : ℕ := t.stop - t.begin

/-- What a partition returns, and the bucket boundaries it leaves behind. -/
structure Outcome where
  numBuckets : ℕ
  equalBuckets : Bool
  bucketStart : ℕ → ℕ

/-- Tasks that are larger are done by all threads together. -/
def maxSequentialSize (kMinParallelBlocksPerThread kBlockSize n numThreads : ℕ) : ℕ :=
  max (n / numThreads) (numThreads * kMinParallelBlocksPerThread * kBlockSize)

/-- `for (int i = 0; i < n; i += step)`. -/
def upTo (step n : ℕ) : List ℕ := (List.range ((n + step - 1) / step)).map fun j => step * j

/-- The buckets that are looked at when there is a further level, in this order. -/
def Outcome.lookedAt (o : Outcome) : List ℕ :=
  -- Skip equality buckets
  upTo (1 + o.equalBuckets.toNat) o.numBuckets ++ if o.equalBuckets then [o.numBuckets - 1] else []

/-- The bucket, as a task. -/
def Outcome.subtask (o : Outcome) (task : ParallelTask) (i : ℕ) : ParallelTask :=
  ⟨task.begin + o.bucketStart i, task.begin + o.bucketStart (i + 1), task.level + 1⟩

/-- What `partition` calls: to build the classifier, after local classification, after the empty
blocks have been moved, after the block permutation, after the margins have been saved, and in the
end. -/
def partitionCalls : List Call := [.single, .barrier, .barrier, .barrier, .barrier, .barrier]

/-- What a thread calls in a round. -/
def roundCalls : List Call := partitionCalls ++ [.barrier]

/-- What a thread calls, round after round. -/
def callAt (k : ℕ) : Option Call := roundCalls[k % roundCalls.length]?

/-- Where a thread is. -/
inductive Doing where
  /-- The primary thread is about to clear the small tasks. -/
  | clearing
  /-- About to read `big_tasks.back()`. -/
  | reading
  /-- In `partition`, after `k` calls of the barrier. -/
  | partitioning (task : ParallelTask) (k : ℕ)
  /-- About to set the parameters of the partitioning step. -/
  | setting (task : ParallelTask)
  /-- The primary thread has returned from `partition`. -/
  | popping (task : ParallelTask)
  /-- It is about to look whether this is the last level. -/
  | testing (task : ParallelTask) (o : Outcome)
  /-- It has yet to look at some buckets. -/
  | queueing (task : ParallelTask) (o : Outcome) (rest : List ℕ)
  /-- It is about to sort the small tasks, if there are no big ones. -/
  | sorting
  /-- At the barrier of the round. -/
  | meeting
  /-- About to look whether there are big tasks. -/
  | deciding
  /-- About to fetch the index of a small task. -/
  | fetching
  /-- With an index. -/
  | indexing (k : ℕ)
  /-- Sorting a small task. -/
  | sequential (task : ParallelTask)
  /-- Returned from `processSmallTasks`. -/
  | finished

/-- It calls the barrier. -/
def Doing.Calls : Doing → Prop
  | .partitioning _ _ | .meeting => True
  | _ => False

/-- It has left the loop. -/
def Doing.Left : Doing → Prop
  | .fetching | .indexing _ | .sequential _ | .finished => True
  | _ => False

/-- Where it is when a call returns. -/
def Doing.returned (isPrimary : Bool) : Doing → Doing
  | .partitioning task k =>
    if k = 0 then .setting task
    else if k + 1 < partitionCalls.length then .partitioning task (k + 1)
    else if isPrimary then .popping task
    else .meeting
  | .meeting => .deciding
  | d => d

/-- A thread, and a record of the big tasks it has read. -/
structure Worker where
  /-- Where it is. -/
  doing : Doing
  /-- `begin_` and `end_` of its sorter. -/
  members : ℕ × ℕ
  took : List ParallelTask

/-- What the threads share, the threads, and a record. -/
structure TaskLoop (ι : Type) where
  /-- The barrier. -/
  sync : Meeting ι
  bigTasks : List ParallelTask
  smallTasks : List ParallelTask
  smallTaskIndex : ℕ
  /-- The threads. -/
  worker : ι → Worker
  /-- The tasks that have been partitioned, and the buckets they have been partitioned into. -/
  partitioned : List (ParallelTask × Outcome)
  /-- Who has begun to sort which small task. -/
  begun : List (ι × ℕ)

/-- What is known about the buckets of `n` elements. -/
structure Outcome.Bounds (o : Outcome) (n : ℕ) :
    Prop extends BucketBounds o.equalBuckets o.numBuckets n o.bucketStart where
  /-- If there are equality buckets, there is one for each other bucket. -/
  even : o.equalBuckets = true → o.numBuckets % 2 = 0

namespace TaskLoop

variable {ι : Type} [DecidableEq ι]

/-- Thread `i` goes on. -/
def set (s : TaskLoop ι) (i : ι) (w : Worker) : TaskLoop ι :=
  { s with worker := Function.update s.worker i w }

/-- Thread `i` is somewhere else. -/
def goTo (s : TaskLoop ι) (i : ι) (d : Doing) : TaskLoop ι := s.set i { s.worker i with doing := d }

/-- Queues a subtask either as a big task, a small task, or not at all, depending on the size. -/
def queueTask (s : TaskLoop ι) (cfg : Config) (maxSequentialSize : ℕ) (task : ParallelTask) :
    TaskLoop ι :=
  if maxSequentialSize < task.size then { s with bigTasks := s.bigTasks ++ [task] }
  else if 2 * cfg.kBaseCaseSize < task.size then { s with smallTasks := s.smallTasks ++ [task] }
  else s

/-- A step of thread `i`. -/
inductive Step (cfg : Config) (maxSequentialSize : ℕ) (primary i : ι) (s : TaskLoop ι) :
    TaskLoop ι → Prop
  /-- It clears the small tasks. -/
  | clear (hd : (s.worker i).doing = .clearing) :
    Step cfg maxSequentialSize primary i s
      ({ s with smallTasks := [], smallTaskIndex := 0 }.goTo i .reading)
  /-- It reads the last big task. -/
  | read {task : ParallelTask} (hd : (s.worker i).doing = .reading)
    (hb : s.bigTasks.getLast? = some task) :
    Step cfg maxSequentialSize primary i s
      (s.set i { s.worker i with
        doing := .partitioning task 0
        took := (s.worker i).took ++ [task] })
  /-- It goes on in a call of the barrier, or returns from it. -/
  | call {m : Meeting ι} (hd : (s.worker i).doing.Calls) (hm : Meeting.Step callAt i s.sync m) :
    Step cfg maxSequentialSize primary i s ({ s with sync := m }.goTo i
      (if (m.thread i).place = Place.between then (s.worker i).doing.returned (i = primary)
        else (s.worker i).doing))
  /-- It builds the classifier, and sorts a sample meanwhile. -/
  | sample {members : ℕ × ℕ} (hp : (s.sync.thread i).place = .running) :
    Step cfg maxSequentialSize primary i s (s.set i { s.worker i with members := members })
  /-- It sets the parameters of the partitioning step. -/
  | set {task : ParallelTask} (hd : (s.worker i).doing = .setting task) :
    Step cfg maxSequentialSize primary i s
      (s.set i { s.worker i with
        doing := .partitioning task 1
        members := (task.begin, task.stop) })
  /-- It removes the task that has been partitioned. -/
  | pop {task : ParallelTask} {o : Outcome} (hd : (s.worker i).doing = .popping task)
    (ho : o.Bounds task.size) :
    Step cfg maxSequentialSize primary i s
      ({ s with bigTasks := s.bigTasks.dropLast, partitioned := s.partitioned ++ [(task, o)] }.goTo
        i (.testing task o))
  /-- It looks whether this is the last level. -/
  | test {task : ParallelTask} {o : Outcome} (hd : (s.worker i).doing = .testing task o) :
    Step cfg maxSequentialSize primary i s (s.goTo i
      (if (s.worker i).members.2 - (s.worker i).members.1 ≤ cfg.kSingleLevelThreshold then .sorting
        else .queueing task o o.lookedAt))
  /-- It queues a bucket. -/
  | queue {task : ParallelTask} {o : Outcome} {c : ℕ} {rest : List ℕ}
      (hd : (s.worker i).doing = .queueing task o (c :: rest)) :
    Step cfg maxSequentialSize primary i s
      ((s.queueTask cfg maxSequentialSize (o.subtask task c)).goTo i (.queueing task o rest))
  /-- It has looked at all buckets. -/
  | queued {task : ParallelTask} {o : Outcome} (hd : (s.worker i).doing = .queueing task o []) :
    Step cfg maxSequentialSize primary i s (s.goTo i .sorting)
  /-- Sort small tasks by size, larger ones first. -/
  | sort {tasks : List ParallelTask} (hd : (s.worker i).doing = .sorting)
      (ht : if s.bigTasks = [] then tasks.Perm s.smallTasks ∧
        tasks.Pairwise (fun t u => u.size ≤ t.size)
        else tasks = s.smallTasks) :
    Step cfg maxSequentialSize primary i s ({ s with smallTasks := tasks }.goTo i .meeting)
  /-- It looks whether there are big tasks. -/
  | decide (hd : (s.worker i).doing = .deciding) :
    Step cfg maxSequentialSize primary i s
    (s.goTo i (if s.bigTasks = [] then .fetching else .reading))
  /-- It fetches an index. -/
  | fetch (hd : (s.worker i).doing = .fetching) :
    Step cfg maxSequentialSize primary i s
      ({ s with smallTaskIndex := s.smallTaskIndex + 1 }.goTo i (.indexing s.smallTaskIndex))
  /-- It reads the task with this index. -/
  | index {k : ℕ} {task : ParallelTask} (hd : (s.worker i).doing = .indexing k)
    (hk : s.smallTasks[k]? = some task) :
    Step cfg maxSequentialSize primary i s
    ({ s with begun := s.begun ++ [(i, k)] }.goTo i (.sequential task))
  /-- There is no task with this index. -/
  | finish {k : ℕ} (hd : (s.worker i).doing = .indexing k) (hk : s.smallTasks.length ≤ k) :
    Step cfg maxSequentialSize primary i s (s.goTo i .finished)
  /-- It has sorted a small task. -/
  | sorted {task : ParallelTask} (hd : (s.worker i).doing = .sequential task) :
    Step cfg maxSequentialSize primary i s (s.goTo i .fetching)

/-- Something happens. -/
inductive Next (cfg : Config) (maxSequentialSize : ℕ) (primary : ι) (s : TaskLoop ι) :
    TaskLoop ι → Prop
  /-- A thread takes a step. -/
  | step {i : ι} {s' : TaskLoop ι} (h : Step cfg maxSequentialSize primary i s s') :
    Next cfg maxSequentialSize primary s s'
  /-- A thread wakes for no reason. -/
  | spurious {i : ι} {m : Meeting ι} (h : Meeting.Spurious i s.sync m) :
    Next cfg maxSequentialSize primary s { s with sync := m }

/-- The state in which `t` threads begin to sort `n` elements; there may be small tasks of an
earlier call. -/
structure Start (primary : ι) (n t : ℕ) (s : TaskLoop ι) : Prop where
  sync : ∃ flag, s.sync = .idle t flag
  bigTasks : s.bigTasks = [⟨0, n, 1⟩]
  doing : ∀ i, (s.worker i).doing = if i = primary then .clearing else .reading
  took : ∀ i, (s.worker i).took = []
  partitioned : s.partitioned = []
  begun : s.begun = []

/-- The states that can be reached when `n` elements are sorted. -/
def Reachable [Fintype ι] (cfg : Config) (kMinParallelBlocksPerThread kBlockSize : ℕ) (primary : ι)
    (n : ℕ) (s : TaskLoop ι) : Prop :=
  ∃ s₀, Start primary n (Fintype.card ι) s₀ ∧ Relation.ReflTransGen
    (Next cfg (maxSequentialSize kMinParallelBlocksPerThread kBlockSize n (Fintype.card ι)) primary)
      s₀ s

end TaskLoop

end Ps4o.InPlace
