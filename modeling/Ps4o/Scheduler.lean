import Mathlib.Algebra.BigOperators.Fin
import Mathlib.Algebra.Order.BigOperators.Group.Finset
import Mathlib.Data.Fintype.Card
import Mathlib.Data.Multiset.AddSub
import Mathlib.Logic.Relation
import Mathlib.Tactic.Abel

/-!
# The scheduler of small tasks

A private queue of each thread, a global queue from which idle threads steal, and a
counter of the idle threads (`scheduler.hpp`). A thread goes round the loop of
`processSmallTasks`: it gets a job, offers one of its own when somebody is idle, and
executes the job, which may put new jobs into its private queue.

## The model

`Thread.step` is one step of one thread: one atomic operation on the global queue or on
the counter, with the work on the thread's own data up to the next one. The global queue
is a list, pushed at the end and popped at the front, so popping fails only when it is
empty; the counter is a 64-bit number and wraps around. `Step` lets any thread take its
next step. What has been emplaced and what has been returned is recorded beside the
state; nothing reads the record.

## What is proved

* `sched_inv` — the invariant over all program counters, queues and the counter.
* `getJob_sound` — **no job is lost or returned twice, the counter never exceeds the
  number of threads, and when some `getJob` has returned false everything is done and
  stays so**.
* `step_enabled` — a thread that has not been told to stop can go on: no queue is popped
  when it is empty.
-/

namespace Ps4o

variable {Job : Type}

/-! ### Private queues -/

/-- A queue that its owner pops at both ends: a vector, and how much of its front is
gone. -/
structure PrivateQueue (Job : Type) where
  /-- The vector. -/
  mV : List Job
  /-- The offset of the first element that is still there. -/
  mOff : ℕ
  /-- The offset is in the vector. -/
  off_le : mOff ≤ mV.length

namespace PrivateQueue

/-- A queue that holds the jobs of a list. -/
def ofList (l : List Job) : PrivateQueue Job := ⟨l, 0, Nat.zero_le _⟩

/-- No jobs, nothing gone. -/
def clear : PrivateQueue Job := ofList []

/-- How many jobs there are. -/
def size (q : PrivateQueue Job) : ℕ := q.mV.length - q.mOff

/-- Whether there are none. -/
def empty (q : PrivateQueue Job) : Bool := q.size == 0

/-- Puts a job at the back. -/
def emplace (q : PrivateQueue Job) (j : Job) : PrivateQueue Job :=
  ⟨q.mV ++ [j], q.mOff, q.off_le.trans (by simp)⟩

/-- Takes the job at the back; none when the assertion fails. -/
def popBack (q : PrivateQueue Job) : Option (Job × PrivateQueue Job) :=
  if h : q.mOff < q.mV.length then
    some (q.mV.get ⟨q.mV.length - 1, by omega⟩,
      if q.mV.dropLast.length = q.mOff then clear
        else ⟨q.mV.dropLast, q.mOff, by rw [List.length_dropLast]; omega⟩)
  else
    none

/-- Takes the job at the front; none when the assertion fails. -/
def popFront (q : PrivateQueue Job) : Option (Job × PrivateQueue Job) :=
  if h : q.mOff < q.mV.length then
    some (q.mV.get ⟨q.mOff, h⟩, if q.mV.length = q.mOff + 1 then clear else ⟨q.mV, q.mOff + 1, h⟩)
  else
    none

/-- The jobs in the queue. -/
def jobs (q : PrivateQueue Job) : List Job := q.mV.drop q.mOff

@[simp] theorem jobs_ofList (l : List Job) : (ofList l).jobs = l := rfl

@[simp] theorem jobs_clear : (clear : PrivateQueue Job).jobs = [] := rfl

theorem size_eq (q : PrivateQueue Job) : q.size = q.jobs.length := by simp [size, jobs]

@[simp] theorem empty_iff (q : PrivateQueue Job) : q.empty = true ↔ q.jobs = [] := by
  simp [empty, size_eq]

@[simp] theorem jobs_emplace (q : PrivateQueue Job) (j : Job) :
    (q.emplace j).jobs = q.jobs ++ [j] := by
  rw [jobs, emplace, List.drop_append_of_le_length q.off_le, jobs]

/-- Popping at the back takes the last job. -/
theorem popBack_eq {q : PrivateQueue Job} (h : q.jobs ≠ []) :
    ∃ j q', q.popBack = some (j, q') ∧ q.jobs = q'.jobs ++ [j] := by
  have hlt : q.mOff < q.mV.length := by
    have := List.length_pos_of_ne_nil h
    rw [jobs, List.length_drop] at this
    omega
  have hlast : q.jobs = q.mV.dropLast.drop q.mOff ++ [q.mV.get ⟨q.mV.length - 1, by omega⟩] := by
    have hne : q.mV ≠ [] := List.ne_nil_of_length_pos (by omega)
    rw [jobs]
    conv_lhs => rw [← List.dropLast_append_getLast hne]
    rw [List.drop_append_of_le_length (by rw [List.length_dropLast]; omega),
      List.getLast_eq_getElem]
    rfl
  rw [popBack, dif_pos hlt]
  refine ⟨_, _, rfl, hlast.trans ?_⟩
  split
  · next he =>
    rw [← he, List.drop_length]
    rfl
  · rfl

/-- Popping at the front takes the first job. -/
theorem popFront_eq {q : PrivateQueue Job} (h : q.jobs ≠ []) :
    ∃ j q', q.popFront = some (j, q') ∧ q.jobs = j :: q'.jobs := by
  have hlt : q.mOff < q.mV.length := by
    have := List.length_pos_of_ne_nil h
    rw [jobs, List.length_drop] at this
    omega
  rw [popFront, dif_pos hlt]
  refine ⟨_, _, rfl, ?_⟩
  rw [jobs, List.drop_eq_getElem_cons hlt]
  split
  · next he => simp [List.drop_eq_nil_of_le (show q.mV.length ≤ q.mOff + 1 by omega)]
  · rfl

end PrivateQueue

/-! ### Threads -/

/-- Where a thread is in the loop of `processSmallTasks`; the job it has got. -/
inductive Pc (Job : Type) where
  /-- Calling `getJob`: is the own queue empty? -/
  | getJob
  /-- `m_glob_queue.try_pop(j)`. -/
  | tryPop
  /-- `m_num_idle_threads.fetch_add(1)`, the first time. -/
  | signalIdle
  /-- The condition of the loop: are all threads idle? -/
  | checkIdle
  /-- Is the global queue empty? -/
  | checkGlob
  /-- `m_num_idle_threads.fetch_sub(1)`. -/
  | signalBusy
  /-- `m_glob_queue.try_pop(j)` in the loop. -/
  | retryPop
  /-- `m_num_idle_threads.fetch_add(1)` in the loop. -/
  | signalIdleAgain
  /-- `getJob` has returned false. -/
  | done
  /-- `offerJob`: are there two jobs in the own queue? -/
  | offerJob (j : Job)
  /-- Is somebody idle? -/
  | offerCheckIdle (j : Job)
  /-- Is the global queue empty? -/
  | offerCheckGlob (j : Job)
  /-- `addJob(my_queue.popFront())`. -/
  | addJob (j : Job)
  /-- Executing the job. -/
  | execute (j : Job)
  deriving DecidableEq

/-- A thread, and its private queue. -/
structure Thread (Job : Type) where
  /-- Where it is. -/
  pc : Pc Job
  /-- Its private queue. -/
  queue : PrivateQueue Job

/-- What the threads share. -/
structure Scheduler (Job : Type) where
  /-- The global queue, first job first. -/
  mGlobQueue : List Job
  /-- The number of idle threads. -/
  mNumIdleThreads : UInt64

/-- What a step shows to the outside. -/
inductive Event (Job : Type) where
  /-- Nothing. -/
  | silent
  /-- A job has been emplaced. -/
  | emplaced (j : Job)
  /-- A `getJob` has returned a job. -/
  | returned (j : Job)

/-- The next step of a thread. A thread that executes a job emplaces the job `new`, if
any, and else is finished with it. -/
def Thread.step (mNumThreads : UInt64) (new : Option Job) (s : Scheduler Job) (th : Thread Job) :
    Option (Event Job × Scheduler Job × Thread Job) :=
  match th.pc with
  | .getJob =>
    if !th.queue.empty then
      th.queue.popBack.map fun r => (.returned r.1, s, ⟨.offerJob r.1, r.2⟩)
    else
      some (.silent, s, { th with pc := .tryPop })
  | .tryPop =>
    match s.mGlobQueue with
    | j :: rest => some (.returned j, { s with mGlobQueue := rest }, { th with pc := .offerJob j })
    | [] => some (.silent, s, { th with pc := .signalIdle })
  | .signalIdle =>
    some (.silent, { s with mNumIdleThreads := s.mNumIdleThreads + 1 },
      { th with pc := .checkIdle })
  | .checkIdle =>
    if s.mNumIdleThreads ≠ mNumThreads then
      some (.silent, s, { th with pc := .checkGlob })
    else
      some (.silent, s, { th with pc := .done })
  | .checkGlob =>
    if s.mGlobQueue ≠ [] then
      some (.silent, s, { th with pc := .signalBusy })
    else
      some (.silent, s, { th with pc := .checkIdle })
  | .signalBusy =>
    some (.silent, { s with mNumIdleThreads := s.mNumIdleThreads - 1 }, { th with pc := .retryPop })
  | .retryPop =>
    match s.mGlobQueue with
    | j :: rest => some (.returned j, { s with mGlobQueue := rest }, { th with pc := .offerJob j })
    | [] => some (.silent, s, { th with pc := .signalIdleAgain })
  | .signalIdleAgain =>
    some (.silent, { s with mNumIdleThreads := s.mNumIdleThreads + 1 },
      { th with pc := .checkIdle })
  | .done => none
  | .offerJob j =>
    if 1 < th.queue.size then
      some (.silent, s, { th with pc := .offerCheckIdle j })
    else
      some (.silent, s, { th with pc := .execute j })
  | .offerCheckIdle j =>
    if 0 < s.mNumIdleThreads then
      some (.silent, s, { th with pc := .offerCheckGlob j })
    else
      some (.silent, s, { th with pc := .execute j })
  | .offerCheckGlob j =>
    if s.mGlobQueue = [] then
      some (.silent, s, { th with pc := .addJob j })
    else
      some (.silent, s, { th with pc := .execute j })
  | .addJob j =>
    th.queue.popFront.map fun r =>
      (.silent, { s with mGlobQueue := s.mGlobQueue ++ [r.1] }, ⟨.execute j, r.2⟩)
  | .execute _ =>
    match new with
    | some j => some (.emplaced j, s, { th with queue := th.queue.emplace j })
    | none => some (.silent, s, { th with pc := .getJob })

/-! ### The system -/

/-- All threads and what they share, with a record of the jobs emplaced and returned. -/
structure Sched (Job : Type) (mNumThreads : UInt64) where
  /-- What is shared. -/
  shared : Scheduler Job
  /-- The threads. -/
  thread : Fin mNumThreads.toNat → Thread Job
  /-- The jobs ever emplaced. -/
  emplaced : List Job
  /-- The jobs returned by some `getJob`. -/
  returned : List Job

/-- Adding an event to the record. -/
def Event.emplacedJobs : Event Job → List Job
  | .emplaced j => [j]
  | _ => []

/-- Adding an event to the record. -/
def Event.returnedJobs : Event Job → List Job
  | .returned j => [j]
  | _ => []

namespace Sched

variable {mNumThreads : UInt64}

/-- All threads enter the loop, with whatever is in their private queues. -/
def start (queues : Fin mNumThreads.toNat → PrivateQueue Job) : Sched Job mNumThreads where
  shared := ⟨[], 0⟩
  thread t := ⟨.getJob, queues t⟩
  emplaced := (List.finRange _).flatMap fun t => (queues t).jobs
  returned := []

/-- A thread takes its next step. -/
def next (s : Sched Job mNumThreads) (t : Fin mNumThreads.toNat) (new : Option Job) :
    Option (Sched Job mNumThreads) := do
  let (e, c, th) ← (s.thread t).step mNumThreads new s.shared
  pure { shared := c, thread := Function.update s.thread t th,
         emplaced := s.emplaced ++ e.emplacedJobs, returned := s.returned ++ e.returnedJobs }

/-- Some thread takes its next step. -/
def Step (s s' : Sched Job mNumThreads) : Prop := ∃ t new, s.next t new = some s'

/-- What can be reached when the private queues hold `queues` at the start. -/
def Reachable (queues : Fin mNumThreads.toNat → PrivateQueue Job) (s : Sched Job mNumThreads) :
    Prop :=
  Relation.ReflTransGen Step (start queues) s

end Sched

/-! ### The invariant -/

/-- The job a thread is executing, or is about to execute. -/
def Pc.job : Pc Job → Option Job
  | .offerJob j | .offerCheckIdle j | .offerCheckGlob j | .addJob j | .execute j => some j
  | _ => none

/-- Counted as idle. -/
def Pc.counted : Pc Job → Bool
  | .checkIdle | .checkGlob | .signalBusy | .done => true
  | _ => false

/-- Has found the own queue empty, and has got nothing since. -/
def Pc.seeking : Pc Job → Bool
  | .tryPop | .signalIdle | .checkIdle | .checkGlob | .signalBusy | .retryPop | .signalIdleAgain
  | .done => true
  | _ => false

/-- Will look into the global queue again before it is counted as idle. -/
def Pc.looking : Pc Job → Bool
  | .signalIdle | .checkIdle | .checkGlob | .signalBusy | .signalIdleAgain | .done => false
  | _ => true

/-- Has seen two jobs in the own queue. -/
def Pc.offering : Pc Job → Bool
  | .offerCheckIdle _ | .offerCheckGlob _ | .addJob _ => true
  | _ => false

namespace Sched

variable {mNumThreads : UInt64}

/-- Nobody has a job, and there is none left to get. -/
def Quiet (s : Sched Job mNumThreads) : Prop :=
  s.shared.mGlobQueue = [] ∧ ∀ t, (s.thread t).pc.seeking = true

/-- The jobs in the queues. -/
def queued (s : Sched Job mNumThreads) : Multiset Job :=
  (s.shared.mGlobQueue : Multiset Job) + ∑ t, ((s.thread t).queue.jobs : Multiset Job)

/-- What holds in every reachable state. -/
structure Inv (s : Sched Job mNumThreads) : Prop where
  /-- The counter counts. -/
  idle : s.shared.mNumIdleThreads.toNat = ∑ t, (s.thread t).pc.counted.toNat
  /-- Who looks elsewhere has nothing of its own. -/
  own : ∀ t, (s.thread t).pc.seeking = true → (s.thread t).queue.jobs = []
  /-- A job in the global queue will be seen. -/
  seen : s.shared.mGlobQueue ≠ [] → ∃ t, (s.thread t).pc.looking = true
  /-- There are two jobs where two have been seen. -/
  two : ∀ t, (s.thread t).pc.offering = true → 1 < (s.thread t).queue.jobs.length
  /-- No job is lost, and none is duplicated. -/
  conserved : (s.returned : Multiset Job) + s.queued = s.emplaced
  /-- Once a thread has been told to stop, there is nothing to do. -/
  stopped : ∀ t, (s.thread t).pc = .done → s.Quiet

end Sched

/-- What a step of one thread does: to the jobs, to the counter, to the global queue. -/
structure Thread.StepSpec (mNumThreads : UInt64) (s : Scheduler Job) (th : Thread Job)
    (e : Event Job) (c : Scheduler Job) (th' : Thread Job) : Prop where
  /-- Jobs come from an emplacement, and go with a return. -/
  jobs : (e.returnedJobs ++ (c.mGlobQueue ++ th'.queue.jobs)).Perm
    (s.mGlobQueue ++ th.queue.jobs ++ e.emplacedJobs)
  /-- Only a thread that becomes idle, or busy, moves the counter. -/
  idle : th'.pc.counted = th.pc.counted ∧ c.mNumIdleThreads = s.mNumIdleThreads ∨
    th'.pc.counted = true ∧ th.pc.counted = false ∧ c.mNumIdleThreads = s.mNumIdleThreads + 1 ∨
    th'.pc.counted = false ∧ th.pc.counted = true ∧ c.mNumIdleThreads = s.mNumIdleThreads - 1
  /-- Only a thread with an empty queue starts looking elsewhere. -/
  own : th'.pc.seeking = true → th'.queue = th.queue ∧ (th.pc.seeking = true ∨ th.queue.jobs = [])
  /-- A thread that does not look again has just found the global queue empty, or has left it
  alone. -/
  seen : th'.pc.looking = false → c.mGlobQueue = [] ∨ th.pc.looking = false ∧
    c.mGlobQueue = s.mGlobQueue
  /-- Two jobs are counted before one is offered. -/
  two : th'.pc.offering = true → th'.queue = th.queue ∧
    (th.pc.offering = true ∨ 1 < th.queue.jobs.length)
  /-- A thread stops when it finds everybody idle. -/
  stopped : th'.pc = .done → s.mNumIdleThreads = mNumThreads ∧ c = s ∧ th.pc.seeking = true
  /-- A thread that looks for a job and finds none goes on looking. -/
  quiet : s.mGlobQueue = [] → th.pc.seeking = true →
    c.mGlobQueue = [] ∧ th'.pc.seeking = true ∧ e = .silent

/-- A step that shows nothing and leaves all jobs where they are. -/
theorem Thread.stepSpec_silent {mNumThreads : UInt64} {s c : Scheduler Job} {pc pc' : Pc Job}
    {q : PrivateQueue Job} (hc : c.mGlobQueue = s.mGlobQueue)
    (hidle : pc'.counted = pc.counted ∧ c.mNumIdleThreads = s.mNumIdleThreads ∨
      pc'.counted = true ∧ pc.counted = false ∧ c.mNumIdleThreads = s.mNumIdleThreads + 1 ∨
      pc'.counted = false ∧ pc.counted = true ∧ c.mNumIdleThreads = s.mNumIdleThreads - 1)
    (hown : pc'.seeking = true → pc.seeking = true ∨ q.jobs = [])
    (hseen : pc'.looking = false → s.mGlobQueue = [] ∨ pc.looking = false)
    (htwo : pc'.offering = true → pc.offering = true ∨ 1 < q.jobs.length)
    (hdone : pc' = .done → s.mNumIdleThreads = mNumThreads ∧ c = s ∧ pc.seeking = true)
    (hquiet : s.mGlobQueue = [] → pc.seeking = true → pc'.seeking = true) :
    Thread.StepSpec mNumThreads s ⟨pc, q⟩ .silent c ⟨pc', q⟩ where
  jobs := by simp [Event.returnedJobs, Event.emplacedJobs, hc]
  idle := hidle
  own h := ⟨rfl, hown h⟩
  seen h := by
    rw [hc]
    exact (hseen h).imp id fun h => ⟨h, rfl⟩
  two h := ⟨rfl, htwo h⟩
  stopped := hdone
  quiet h hp := ⟨hc.trans h, hquiet h hp, rfl⟩

/-- A job is taken from one of the queues. -/
theorem Thread.stepSpec_returned {mNumThreads : UInt64} {s c : Scheduler Job} {pc : Pc Job}
    {q q' : PrivateQueue Job} {j : Job}
    (hjobs : (j :: (c.mGlobQueue ++ q'.jobs)).Perm (s.mGlobQueue ++ q.jobs))
    (hc : c.mNumIdleThreads = s.mNumIdleThreads) (hcount : pc.counted = false)
    (hquiet : s.mGlobQueue = [] → pc.seeking = false) :
    Thread.StepSpec mNumThreads s ⟨pc, q⟩ (.returned j) c ⟨.offerJob j, q'⟩ where
  jobs := by simpa [Event.returnedJobs, Event.emplacedJobs] using hjobs
  idle := .inl ⟨hcount.symm, hc⟩
  own h := by cases h
  seen h := by cases h
  two h := by cases h
  stopped h := by cases h
  quiet h hp := by simp [hquiet h] at hp

/-- A thread that has a job, or may have one, is not counted. -/
theorem Pc.counted_of_seeking {pc : Pc Job} (h : pc.seeking = false) : pc.counted = false := by
  cases pc <;> first | rfl | cases h

theorem Pc.looking_of_seeking {pc : Pc Job} (h : pc.seeking = false) : pc.looking = true := by
  cases pc <;> first | rfl | cases h

theorem Pc.offering_of_seeking {pc : Pc Job} (h : pc.seeking = true) : pc.offering = false := by
  cases pc <;> first | rfl | cases h

/-- A step between two places where the thread does not look for a job. -/
theorem Thread.stepSpec_busy {mNumThreads : UInt64} {s : Scheduler Job} {pc pc' : Pc Job}
    {q : PrivateQueue Job} (h : pc.seeking = false) (h' : pc'.seeking = false)
    (htwo : pc'.offering = true → pc.offering = true ∨ 1 < q.jobs.length) :
    Thread.StepSpec mNumThreads s ⟨pc, q⟩ .silent s ⟨pc', q⟩ := by
  apply stepSpec_silent rfl (.inl ⟨?_, rfl⟩) _ _ htwo
  · rintro rfl
    cases h'
  · intro _ hs
    simp [h] at hs
  · rw [Pc.counted_of_seeking h, Pc.counted_of_seeking h']
  · intro hs
    simp [h'] at hs
  · intro hl
    simp [Pc.looking_of_seeking h'] at hl

/-- A step of a thread that looks for a job, other than its last. -/
theorem Thread.stepSpec_seeking {mNumThreads : UInt64} {s c : Scheduler Job} {pc pc' : Pc Job}
    {q : PrivateQueue Job} (hc : c.mGlobQueue = s.mGlobQueue)
    (h : pc.seeking = true) (h' : pc'.seeking = true) (hdone : pc' ≠ .done)
    (hidle : pc'.counted = pc.counted ∧ c.mNumIdleThreads = s.mNumIdleThreads ∨
      pc'.counted = true ∧ pc.counted = false ∧ c.mNumIdleThreads = s.mNumIdleThreads + 1 ∨
      pc'.counted = false ∧ pc.counted = true ∧ c.mNumIdleThreads = s.mNumIdleThreads - 1)
    (hseen : pc'.looking = false → s.mGlobQueue = [] ∨ pc.looking = false) :
    Thread.StepSpec mNumThreads s ⟨pc, q⟩ .silent c ⟨pc', q⟩ := by
  apply stepSpec_silent hc hidle (fun _ => .inl h) hseen _ (fun hd => absurd hd hdone)
    (fun _ _ => h')
  intro ho
  simp [Pc.offering_of_seeking h'] at ho

/-- `getJob` looks into the own queue. -/
theorem Thread.getJob_spec {mNumThreads : UInt64} {new : Option Job} {s c : Scheduler Job}
    {q : PrivateQueue Job} {th' : Thread Job} {e : Event Job}
    (h : Thread.step mNumThreads new s ⟨.getJob, q⟩ = some (e, c, th')) :
    Thread.StepSpec mNumThreads s ⟨.getJob, q⟩ e c th' := by
  simp only [Thread.step] at h
  split at h
  · next hq =>
    obtain ⟨j, q', hpop, hjobs⟩ := q.popBack_eq (by simpa [← PrivateQueue.empty_iff] using hq)
    simp only [hpop, Option.map_some, Option.some.injEq, Prod.mk.injEq] at h
    obtain ⟨rfl, rfl, rfl⟩ := h
    refine stepSpec_returned ?_ rfl rfl fun _ => rfl
    rw [hjobs, ← List.append_assoc]
    exact (List.perm_append_singleton _ _).symm
  · next hq =>
    cases h
    have hq : q.jobs = [] := by simpa [← PrivateQueue.empty_iff] using hq
    exact stepSpec_silent rfl (by simp [Pc.counted]) (fun _ => .inr hq) (by simp [Pc.looking])
      (by simp [Pc.offering]) (by simp) (by simp [Pc.seeking])

/-- `try_pop` takes the first job of the global queue, or the thread goes on to `pc'`. -/
theorem Thread.pop_spec {mNumThreads : UInt64} {s c : Scheduler Job} {pc : Pc Job} (pc' : Pc Job)
    {q : PrivateQueue Job} {th' : Thread Job} {e : Event Job}
    (hseek : pc.seeking = true) (hseek' : pc'.seeking = true) (hdone : pc' ≠ .done)
    (hcount : pc.counted = false) (hcount' : pc'.counted = false)
    (h : (∃ j rest, s.mGlobQueue = j :: rest ∧
      (.returned j, { s with mGlobQueue := rest }, ⟨.offerJob j, q⟩) = (e, c, th')) ∨
      s.mGlobQueue = [] ∧ (.silent, s, ⟨pc', q⟩) = (e, c, th')) :
    Thread.StepSpec mNumThreads s ⟨pc, q⟩ e c th' := by
  obtain ⟨j, rest, hg, h⟩ | ⟨hg, h⟩ := h <;> cases h
  · exact stepSpec_returned (by simp [hg]) rfl hcount (by simp [hg])
  · exact stepSpec_seeking rfl hseek hseek' hdone (.inl ⟨hcount'.trans hcount.symm, rfl⟩)
      fun _ => .inl hg

/-- `addJob` moves the first job of the own queue to the global one. -/
theorem Thread.addJob_spec {mNumThreads : UInt64} {new : Option Job} {s c : Scheduler Job}
    {q : PrivateQueue Job} {j : Job} {th' : Thread Job} {e : Event Job}
    (h : Thread.step mNumThreads new s ⟨.addJob j, q⟩ = some (e, c, th')) :
    Thread.StepSpec mNumThreads s ⟨.addJob j, q⟩ e c th' := by
  simp only [Thread.step, Option.map_eq_some_iff] at h
  obtain ⟨⟨j', q'⟩, hpop, h⟩ := h
  cases h
  obtain ⟨j'', q'', hpop', hjobs⟩ := q.popFront_eq fun h0 => by
    have := q.size_eq
    simp only [PrivateQueue.size, h0, List.length_nil] at this
    rw [PrivateQueue.popFront, dif_neg (by omega)] at hpop
    cases hpop
  obtain ⟨rfl, rfl⟩ : j' = j'' ∧ q' = q'' := by simpa [hpop] using hpop'
  exact ⟨by simp [Event.returnedJobs, Event.emplacedJobs, hjobs],
    .inl ⟨rfl, rfl⟩, by simp [Pc.seeking],
    by simp [Pc.looking], by simp [Pc.offering], by simp, by simp [Pc.seeking]⟩

/-- A job that is executed emplaces another one, or is finished. -/
theorem Thread.execute_spec {mNumThreads : UInt64} {new : Option Job} {s c : Scheduler Job}
    {q : PrivateQueue Job} {j : Job} {th' : Thread Job} {e : Event Job}
    (h : Thread.step mNumThreads new s ⟨.execute j, q⟩ = some (e, c, th')) :
    Thread.StepSpec mNumThreads s ⟨.execute j, q⟩ e c th' := by
  simp only [Thread.step] at h
  split at h <;> cases h
  · exact ⟨by simp [Event.returnedJobs, Event.emplacedJobs],
      .inl ⟨rfl, rfl⟩, by simp [Pc.seeking],
      by simp [Pc.looking], by simp [Pc.offering], by simp, by simp [Pc.seeking]⟩
  · exact stepSpec_busy rfl rfl (by simp [Pc.offering])

theorem Thread.step_spec {mNumThreads : UInt64} {new : Option Job} {s c : Scheduler Job}
    {th th' : Thread Job} {e : Event Job} (h : th.step mNumThreads new s = some (e, c, th')) :
    Thread.StepSpec mNumThreads s th e c th' := by
  obtain ⟨pc, q⟩ := th
  cases pc with
  | getJob => exact getJob_spec h
  | tryPop =>
    apply pop_spec .signalIdle rfl rfl (by simp) rfl rfl
    simp only [Thread.step] at h
    split at h
    · next j rest hg => exact .inl ⟨j, rest, hg, Option.some.inj h⟩
    · next hg => exact .inr ⟨hg, Option.some.inj h⟩
  | signalIdle =>
    cases h
    exact stepSpec_seeking rfl rfl rfl (by simp) (by simp [Pc.counted]) (by simp [Pc.looking])
  | checkIdle =>
    simp only [Thread.step] at h
    split at h <;> cases h
    · exact stepSpec_seeking rfl rfl rfl (by simp) (.inl ⟨rfl, rfl⟩) fun _ => .inr rfl
    · next hn =>
      exact stepSpec_silent rfl (.inl ⟨rfl, rfl⟩) (fun _ => .inl rfl) (fun _ => .inr rfl)
        (by simp [Pc.offering]) (fun _ => ⟨by simpa using hn, rfl, rfl⟩) fun _ _ => rfl
  | checkGlob =>
    simp only [Thread.step] at h
    split at h <;> cases h <;>
      exact stepSpec_seeking rfl rfl rfl (by simp) (.inl ⟨rfl, rfl⟩) fun _ => .inr rfl
  | signalBusy =>
    cases h
    exact stepSpec_seeking rfl rfl rfl (by simp) (by simp [Pc.counted]) fun _ => .inr rfl
  | retryPop =>
    apply pop_spec .signalIdleAgain rfl rfl (by simp) rfl rfl
    simp only [Thread.step] at h
    split at h
    · next j rest hg => exact .inl ⟨j, rest, hg, Option.some.inj h⟩
    · next hg => exact .inr ⟨hg, Option.some.inj h⟩
  | signalIdleAgain =>
    cases h
    exact stepSpec_seeking rfl rfl rfl (by simp) (by simp [Pc.counted]) fun _ => .inr rfl
  | done => cases h
  | offerJob j =>
    simp only [Thread.step] at h
    split at h <;> cases h
    · next hq =>
      exact stepSpec_busy rfl rfl fun _ => .inr (by simpa [PrivateQueue.size_eq] using hq)
    · exact stepSpec_busy rfl rfl (by simp [Pc.offering])
  | offerCheckIdle j =>
    simp only [Thread.step] at h
    split at h <;> cases h <;> exact stepSpec_busy rfl rfl fun _ => .inl rfl
  | offerCheckGlob j =>
    simp only [Thread.step] at h
    split at h <;> cases h <;> exact stepSpec_busy rfl rfl fun _ => .inl rfl
  | addJob j => exact addJob_spec h
  | execute j => exact execute_spec h

/-- Changing one summand. -/
theorem sum_update {ι M β : Type} [Fintype ι] [DecidableEq ι] [AddCommMonoid M] (f : ι → β)
    (μ : β → M) (i : ι) (x : β) :
    ∑ j, μ (Function.update f i x j) + μ (f i) = ∑ j, μ (f j) + μ x := by
  rw [← Finset.add_sum_erase _ _ (Finset.mem_univ i),
    ← Finset.add_sum_erase _ (fun j => μ (f j)) (Finset.mem_univ i)]
  have hrest : ∑ j ∈ Finset.univ.erase i, μ (Function.update f i x j) = ∑ j ∈
      Finset.univ.erase i, μ (f j) :=
    Finset.sum_congr rfl fun j hj => by rw [Function.update_of_ne (Finset.ne_of_mem_erase hj)]
  rw [hrest, Function.update_self]
  abel

namespace Sched

variable {mNumThreads : UInt64} {s s' : Sched Job mNumThreads}

/-- At most all threads are counted. -/
theorem sum_counted_le (f : Fin mNumThreads.toNat → Thread Job) :
    ∑ t, (f t).pc.counted.toNat ≤ mNumThreads.toNat := by
  calc ∑ t, (f t).pc.counted.toNat ≤ ∑ _t : Fin mNumThreads.toNat, 1 :=
        Finset.sum_le_sum fun t _ => Bool.toNat_le _
    _ = mNumThreads.toNat := by simp

/-- When as many are counted as there are, everybody is. -/
theorem counted_of_sum_eq {f : Fin mNumThreads.toNat → Thread Job}
    (h : ∑ t, (f t).pc.counted.toNat = mNumThreads.toNat) (t : Fin mNumThreads.toNat) :
    (f t).pc.counted = true := by
  by_contra hf
  have hlt : ∑ t, (f t).pc.counted.toNat < ∑ _t : Fin mNumThreads.toNat, 1 :=
    Finset.sum_lt_sum (fun t _ => Bool.toNat_le _) ⟨t, Finset.mem_univ t, by simp [hf]⟩
  simp [h] at hlt

/-- A counted thread does not look again, and has nothing of its own. -/
theorem of_counted {pc : Pc Job} (h : pc.counted = true) :
    pc.looking = false ∧ pc.seeking = true := by
  cases pc <;> simp_all [Pc.counted, Pc.looking, Pc.seeking]

/-- When everybody is counted, there is nothing left. -/
theorem Inv.quiet_of_idle (h : s.Inv) (hi : s.shared.mNumIdleThreads = mNumThreads) : s.Quiet := by
  have hall := counted_of_sum_eq (h.idle.symm.trans (congrArg UInt64.toNat hi))
  refine ⟨?_, fun t => (of_counted (hall t)).2⟩
  by_contra hne
  obtain ⟨t, ht⟩ := h.seen hne
  simp [(of_counted (hall t)).1] at ht

/-- A step of the system is a step of one thread. -/
theorem step_cases (h : Step s s') :
    ∃ t new e c th, (s.thread t).step mNumThreads new s.shared = some (e, c, th) ∧
      s' = { shared := c, thread := Function.update s.thread t th,
             emplaced := s.emplaced ++ e.emplacedJobs, returned :=
                 s.returned ++ e.returnedJobs } := by
  obtain ⟨t, new, h⟩ := h
  obtain ⟨⟨e, c, th⟩, hstep, h⟩ := Option.bind_eq_some_iff.mp h
  exact ⟨t, new, e, c, th, hstep, (Option.some.inj h).symm⟩

/-- **A quiet system stays quiet.** -/
theorem Quiet.step (h : s.Quiet) (hs : Step s s') :
    s'.Quiet ∧ s'.returned = s.returned ∧ s'.emplaced = s.emplaced := by
  obtain ⟨t, new, e, c, th, hstep, rfl⟩ := step_cases hs
  obtain ⟨hg, hsk, rfl⟩ := (Thread.step_spec hstep).quiet h.1 (h.2 t)
  refine ⟨⟨hg, fun u => ?_⟩, by simp [Event.returnedJobs], by simp [Event.emplacedJobs]⟩
  by_cases hut : u = t
  · subst hut
    simpa using hsk
  · simpa [Function.update_of_ne hut] using h.2 u

theorem inv_start (queues : Fin mNumThreads.toNat → PrivateQueue Job) : (start queues).Inv where
  idle := by simp [start, Pc.counted]
  own t h := by cases h
  seen h := by simp [start] at h
  two t h := by cases h
  conserved := by
    simp only [start, queued, Multiset.coe_nil, zero_add, Fin.sum_univ_def]
    induction List.finRange mNumThreads.toNat with
    | nil => rfl
    | cons t l ih => rw [List.map_cons, List.sum_cons, ih, List.flatMap_cons, Multiset.coe_add]
  stopped t h := by cases h

/-- **One step keeps the invariant.** -/
theorem Inv.step (h : s.Inv) (hs : Step s s') : s'.Inv := by
  obtain ⟨t, new, e, c, th, hstep, rfl⟩ := step_cases hs
  have spec := Thread.step_spec hstep
  have hsum := sum_update s.thread (fun th => th.pc.counted.toNat) t th
  have hle := sum_counted_le (Function.update s.thread t th)
  have hlt := mNumThreads.toNat_lt
  refine ⟨?_, fun u hu => ?_, fun hg => ?_, fun u hu => ?_, ?_, fun u hu => ?_⟩
  · change c.mNumIdleThreads.toNat = ∑ u, (Function.update s.thread t th u).pc.counted.toNat
    rcases spec.idle with ⟨hc, hi⟩ | ⟨hc', hc, hi⟩ | ⟨hc', hc, hi⟩
    · rw [hc] at hsum
      rw [hi, h.idle]
      omega
    · rw [hc, hc', Bool.toNat_true, Bool.toNat_false] at hsum
      rw [hi, UInt64.toNat_add, h.idle]
      have : (1 : UInt64).toNat = 1 := rfl
      omega
    · rw [hc, hc', Bool.toNat_true, Bool.toNat_false] at hsum
      have h1 : (1 : UInt64) ≤ s.shared.mNumIdleThreads := by
        rw [UInt64.le_iff_toNat_le, h.idle]
        have : (1 : UInt64).toNat = 1 := rfl
        omega
      rw [hi, UInt64.toNat_sub_of_le _ _ h1, h.idle]
      have : (1 : UInt64).toNat = 1 := rfl
      omega
  · by_cases hut : u = t
    · subst hut
      simp only [Function.update_self] at hu ⊢
      obtain ⟨hq, hown⟩ := spec.own hu
      rw [hq]
      exact hown.elim (h.own u) id
    · simp only [Function.update_of_ne hut] at hu ⊢
      exact h.own u hu
  · by_contra hnone
    simp only [not_exists, Bool.not_eq_true] at hnone
    have ht := hnone t
    rw [Function.update_self] at ht
    rcases spec.seen ht with hg' | ⟨hl, hg'⟩
    · exact hg hg'
    · obtain ⟨u, hu⟩ := h.seen (fun h0 => hg (hg'.trans h0))
      have hu' := hnone u
      by_cases hut : u = t
      · subst hut
        simp [hl] at hu
      · rw [Function.update_of_ne hut] at hu'
        simp [hu'] at hu
  · by_cases hut : u = t
    · subst hut
      simp only [Function.update_self] at hu ⊢
      obtain ⟨hq, htwo⟩ := spec.two hu
      rw [hq]
      exact htwo.elim (h.two u) id
    · simp only [Function.update_of_ne hut] at hu ⊢
      exact h.two u hu
  · have hjobs := sum_update s.thread (fun th => (th.queue.jobs : Multiset Job)) t th
    have hperm := Multiset.coe_eq_coe.mpr spec.jobs
    have hcons := h.conserved
    simp only [queued, ← Multiset.coe_add] at hperm hcons ⊢
    refine add_right_cancel (b := ((s.thread t).queue.jobs : Multiset Job)) ?_
    rw [← hcons]
    calc _ = s.returned + (e.returnedJobs + c.mGlobQueue) +
          (∑ u, ((Function.update s.thread t th u).queue.jobs : Multiset Job) +
            (s.thread t).queue.jobs) := by abel
      _ = s.returned + (e.returnedJobs + (c.mGlobQueue + th.queue.jobs)) +
          ∑ u, ((s.thread u).queue.jobs : Multiset Job) := by rw [hjobs]; abel
      _ = _ := by rw [hperm]; abel
  · have hquiet : s.Quiet := by
      by_cases hut : u = t
      · subst hut
        simp only [Function.update_self] at hu
        exact h.quiet_of_idle (spec.stopped hu).1
      · simp only [Function.update_of_ne hut] at hu
        exact h.stopped u hu
    exact (hquiet.step hs).1

/-- The invariant holds in every reachable state. -/
theorem sched_inv {queues : Fin mNumThreads.toNat → PrivateQueue Job} (h : Reachable queues s) :
    s.Inv := by
  induction h with
  | refl => exact inv_start queues
  | tail _ hs ih => exact ih.step hs

/-- Once there is nothing left to do, every run stays there, and returns nothing. -/
theorem Quiet.run (h : s.Quiet) (hs : Relation.ReflTransGen Step s s') :
    s'.Quiet ∧ s'.returned = s.returned ∧ s'.emplaced = s.emplaced := by
  induction hs with
  | refl => exact ⟨h, rfl, rfl⟩
  | tail _ hs ih =>
    obtain ⟨hq, hr, he⟩ := ih.1.step hs
    exact ⟨hq, hr.trans ih.2.1, he.trans ih.2.2⟩

/-- A thread that has not been told to stop has a next step. -/
theorem step_enabled {queues : Fin mNumThreads.toNat → PrivateQueue Job} (h : Reachable queues s)
    (t : Fin mNumThreads.toNat) (ht : (s.thread t).pc ≠ .done) (new : Option Job) :
    ((s.thread t).step mNumThreads new s.shared).isSome := by
  have htwo := (sched_inv h).two t
  rcases hth : s.thread t with ⟨pc, q⟩
  rw [hth] at ht htwo
  cases pc with
  | getJob =>
    simp only [Thread.step]
    split
    · next hq =>
      obtain ⟨j, q', hpop, -⟩ := q.popBack_eq (by simpa [← PrivateQueue.empty_iff] using hq)
      simp [hpop]
    · rfl
  | addJob j =>
    obtain ⟨j', q', hpop, -⟩ := q.popFront_eq fun h0 => by
      have := htwo rfl
      simp [h0] at this
    simp [Thread.step, hpop]
  | done => exact absurd rfl ht
  | execute j => cases new <;> rfl
  | _ =>
    simp only [Thread.step]
    first | rfl | (split <;> rfl)

/-- **No job is lost or returned twice, and nobody stops before everything is done.** In every
reachable state the jobs returned are among the jobs emplaced, each at most as often, and the
counter does not exceed the number of threads. When a `getJob` has returned false, all queues
are empty, nobody is executing a job, every job emplaced has been returned, and no job is
emplaced or returned from then on. -/
theorem getJob_sound {queues : Fin mNumThreads.toNat → PrivateQueue Job} (h : Reachable queues s) :
    s.returned.Subperm s.emplaced ∧ (s.emplaced.Nodup → s.returned.Nodup) ∧
      s.shared.mNumIdleThreads ≤ mNumThreads ∧
      ∀ t, (s.thread t).pc = .done →
        s.shared.mGlobQueue = [] ∧ (∀ u, (s.thread u).queue.jobs = []) ∧
        (∀ u, (s.thread u).pc.job = none) ∧ s.returned.Perm s.emplaced ∧
          ∀ s', Relation.ReflTransGen Step s s' → s'.returned = s.returned ∧
          s'.emplaced = s.emplaced := by
  have hinv := sched_inv h
  have hsub : s.returned.Subperm s.emplaced := by
    rw [← Multiset.coe_le, ← hinv.conserved]
    exact Multiset.le_add_right _ _
  refine ⟨hsub, fun hn => ?_, ?_, fun t ht => ?_⟩
  · obtain ⟨l, hl, hs⟩ := hsub
    exact hl.nodup_iff.mp (hn.sublist hs)
  · rw [UInt64.le_iff_toNat_le, hinv.idle]
    exact sum_counted_le s.thread
  · have hq := hinv.stopped t ht
    have hown : ∀ u, (s.thread u).queue.jobs = [] := fun u => hinv.own u (hq.2 u)
    refine ⟨hq.1, hown, fun u => ?_, ?_, fun s' hs' => (hq.run hs').2⟩
    · have := hq.2 u
      cases hpc : (s.thread u).pc <;> simp_all [Pc.job, Pc.seeking]
    · rw [← Multiset.coe_eq_coe, ← hinv.conserved, queued, hq.1]
      simp [hown]

/-- Taking steps one after the other. -/
def steps (s : Sched Job mNumThreads) (l : List (Fin mNumThreads.toNat × Option Job)) :
    Option (Sched Job mNumThreads) :=
  l.foldlM (fun s c => s.next c.1 c.2) s

theorem steps_run {l : List (Fin mNumThreads.toNat × Option Job)} (h : s.steps l = some s') :
    Relation.ReflTransGen Step s s' := by
  induction l generalizing s with
  | nil => cases h; exact .refl
  | cons c l ih =>
    obtain ⟨s₁, h₁, h⟩ := Option.bind_eq_some_iff.mp h
    exact (ih h).head ⟨c.1, c.2, h₁⟩

/-- Two threads and three jobs: the second thread goes idle, steals the job `7` and makes the
job `5` of it; in the end both stop. -/
theorem getJob_sound_steal : ∃ (queues : Fin (UInt64.toNat 2) → PrivateQueue ℕ) (s : Sched ℕ 2),
    Reachable queues s ∧
    ((s.thread ⟨0, by decide⟩).pc = .done ∧ (s.thread ⟨1, by decide⟩).pc = .done) ∧
      s.returned = [9, 7, 8, 5] ∧ s.returned.Perm s.emplaced := by
  let first : Fin (UInt64.toNat 2) := ⟨0, by decide⟩
  let second : Fin (UInt64.toNat 2) := ⟨1, by decide⟩
  let go (t : Fin (UInt64.toNat 2)) (n : ℕ) : List (Fin (UInt64.toNat 2) × Option ℕ) :=
    List.replicate n (t, none)
  have hrun : ((start fun t => .ofList (if t = first then [7, 8, 9] else [])).steps
      (go second 3 ++ go first 5 ++ go second 5 ++ go first 7 ++
        [(second, some 5)] ++ go second 8 ++ go first 1)).any (fun s : Sched ℕ 2 =>
          (s.thread first).pc = .done ∧ (s.thread second).pc = .done ∧
              s.returned = [9, 7, 8, 5]) = true := by
    decide +kernel
  obtain ⟨s, hs, hdone⟩ := (Option.any_eq_true _ _).mp hrun
  obtain ⟨h₁, h₂, hret⟩ := of_decide_eq_true hdone
  exact ⟨_, s, steps_run hs, ⟨h₁, h₂⟩, hret, ((getJob_sound (steps_run hs)).2.2.2 first h₁).2.2.2.1⟩

end Sched

end Ps4o
