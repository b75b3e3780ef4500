import Mathlib.Data.Fintype.Card
import Mathlib.Logic.Function.Basic
import Mathlib.Logic.Relation
import Mathlib.Tactic.Common

/-!
# The barrier

Threads that meet at a barrier, and the execution of something by the first thread that comes there
(`synchronization.hpp`). Both are counted by one counter, and the threads are released by a flag.

## The model

Every thread calls `barrier` or `single` again and again; `kind` says what the calls are, from the
first one on. What a thread does while it holds the lock is one step. A thread that waits is asleep
until it is woken by `notify_all` or for no reason; it then waits for the lock, and looks whether
the flag has changed. Between giving up the lock and calling `notify_all` other threads take steps,
and so they do while a function is executed. `released`, `executes` and `executed` record what has
happened; nothing reads the record.

## What is proved

* `Inv` ties the counter and the flag to the places of all threads; it holds when no thread has come
  (`idle_inv`).
-/

namespace Ps4o

/-! ### The code -/

/-- What a thread calls. -/
inductive Call where
  /-- Execution resumes only after all threads reached this point. -/
  | barrier
  /-- Only the first thread executes a function, other threads wait. -/
  | single
  deriving DecidableEq

/-- Where a thread is. -/
inductive Place where
  /-- Between two calls. -/
  | between
  /-- Executing the function, without the lock. -/
  | running
  /-- Waiting until it is woken; the flag it has seen. -/
  | asleep (f : Bool)
  /-- Waiting for the lock, to look at the flag again. -/
  | awake (f : Bool)
  /-- Without the lock, and about to call `cv_.notify_all()`. -/
  | notifying
  deriving DecidableEq

/-- Thread barrier, also supports single() execution. -/
structure Barrier where
  /-- How many threads there are. -/
  initCount : ℤ
  /-- How many of them have not come yet. -/
  hitCount : ℤ
  /-- Changes whenever the threads are released. -/
  flag : Bool

namespace Barrier

/-- A barrier for a number of threads. -/
def new (numThreads : ℕ) : Barrier := ⟨numThreads, numThreads, false⟩

/-- Releases the waiting threads, and gives up the lock. -/
def notifyAll (b : Barrier) : Barrier × Place := (⟨b.initCount, b.initCount, !b.flag⟩, .notifying)

/-- Waits, unless the flag changes. -/
def wait (b : Barrier) : Barrier × Place := (b, .asleep b.flag)

/-- One more thread has come. -/
def hit (b : Barrier) : Barrier := { b with hitCount := b.hitCount - 1 }

/-- What `barrier` does with the lock. -/
def barrier (b : Barrier) : Barrier × Place :=
  if b.hit.hitCount = 0 then b.hit.notifyAll else b.hit.wait

/-- The end of `single`. -/
def singleEnd (b : Barrier) : Barrier × Place := if b.hitCount < 0 then b.notifyAll else b.wait

/-- What `single` does with the lock when it is called. -/
def single (b : Barrier) : Barrier × Place :=
  if b.hitCount = b.initCount then (b.hit, .running) else b.hit.singleEnd

/-- What `single` does with the lock when the function has been executed. -/
def singleAfter (b : Barrier) : Barrier × Place := b.hit.singleEnd

end Barrier

/-- A thread: the calls it has returned from, and where it is. -/
structure Caller where
  calls : ℕ
  place : Place
  deriving DecidableEq

/-- A thread that sleeps is woken. -/
def Caller.wake (c : Caller) : Caller :=
  match c.place with
  | .asleep f => ⟨c.calls, .awake f⟩
  | _ => c

/-- A barrier, the threads, and a record. -/
structure Meeting (ι : Type) where
  /-- The barrier. -/
  barrier : Barrier
  /-- The threads. -/
  thread : ι → Caller
  /-- How many calls have been released. -/
  released : ℕ
  /-- For each call, the threads that have begun to execute a function. -/
  executes : ℕ → List ι
  /-- For each call, the threads that have executed a function. -/
  executed : ℕ → List ι

namespace Meeting

variable {ι : Type}

/-- Nobody has called anything. -/
def start (numThreads : ℕ) : Meeting ι :=
  ⟨.new numThreads, fun _ => ⟨0, .between⟩, 0, fun _ => [], fun _ => []⟩

/-- Nobody has called anything since the barrier has been used before. -/
def idle (numThreads : ℕ) (flag : Bool) : Meeting ι :=
  ⟨⟨numThreads, numThreads, flag⟩, fun _ => ⟨0, .between⟩, 0, fun _ => [], fun _ => []⟩

variable [DecidableEq ι]

/-- A thread has had the lock. -/
def after (s : Meeting ι) (i : ι) (r : Barrier × Place) : Meeting ι :=
  { s with
    barrier := r.1
    thread := Function.update s.thread i ⟨(s.thread i).calls, r.2⟩
    released := if r.2 = .notifying then s.released + 1 else s.released
    executes := if r.2 = .running then
        Function.update s.executes (s.thread i).calls (i :: s.executes (s.thread i).calls)
      else s.executes }

/-- A thread has executed a function. -/
def finish (s : Meeting ι) (i : ι) : Meeting ι :=
  { s with
    executed := Function.update s.executed (s.thread i).calls
      (i :: s.executed (s.thread i).calls) }

/-- A thread is somewhere else. -/
def move (s : Meeting ι) (i : ι) (c : Caller) : Meeting ι :=
  { s with thread := Function.update s.thread i c }

/-- A thread wakes the others, and returns. -/
def notify (s : Meeting ι) (i : ι) : Meeting ι :=
  { s with
    thread := Function.update (fun j => (s.thread j).wake) i ⟨(s.thread i).calls + 1, .between⟩ }

/-- A step of thread `i`. -/
inductive Step (kind : ℕ → Option Call) (i : ι) (s : Meeting ι) : Meeting ι → Prop
  /-- It calls `barrier`. -/
  | barrier (hp : (s.thread i).place = .between) (hk : kind (s.thread i).calls = some .barrier) :
    Step kind i s (s.after i s.barrier.barrier)
  /-- It calls `single`. -/
  | single (hp : (s.thread i).place = .between) (hk : kind (s.thread i).calls = some .single) :
    Step kind i s (s.after i s.barrier.single)
  /-- It has executed the function. -/
  | finish (hp : (s.thread i).place = .running) :
    Step kind i s ((s.finish i).after i s.barrier.singleAfter)
  /-- It looks at the flag, which has changed, and returns. -/
  | leave {f : Bool} (hp : (s.thread i).place = .awake f) (hf : f ≠ s.barrier.flag) :
    Step kind i s (s.move i ⟨(s.thread i).calls + 1, .between⟩)
  /-- It looks at the flag, which has not changed. -/
  | stay {f : Bool} (hp : (s.thread i).place = .awake f) (hf : f = s.barrier.flag) :
    Step kind i s (s.move i ⟨(s.thread i).calls, .asleep f⟩)
  /-- It wakes the others, and returns. -/
  | notify (hp : (s.thread i).place = .notifying) : Step kind i s (s.notify i)

/-- A thread wakes for no reason. -/
inductive Spurious (i : ι) (s : Meeting ι) : Meeting ι → Prop
  | wake {f : Bool} (hp : (s.thread i).place = .asleep f) :
    Spurious i s (s.move i ⟨(s.thread i).calls, .awake f⟩)

/-- Something happens. -/
def Next (kind : ℕ → Option Call) (s s' : Meeting ι) : Prop :=
  ∃ i, Step kind i s s' ∨ Spurious i s s'

/-- The states that can be reached, when there are `n` threads. -/
def Reachable (kind : ℕ → Option Call) (n : ℕ) (s : Meeting ι) : Prop :=
  Relation.ReflTransGen (Next kind) (start n) s

end Meeting

/-! ### The invariant -/

/-- A thread that has entered call `r`, and has not returned. -/
def Caller.Entered (r : ℕ) (c : Caller) : Prop := c.calls = r ∧ c.place ≠ .between

instance (r : ℕ) (c : Caller) : Decidable (c.Entered r) := inferInstanceAs (Decidable (_ ∧ _))

/-- Where a thread can be before call `r` is released. -/
def Caller.Current (r : ℕ) (flag : Bool) (c : Caller) : Prop :=
  c.calls = r ∧ (c.place = .between ∨ c.place = .running ∨ c.place = .asleep flag ∨
    c.place = .awake flag)

/-- Where a thread can be after the last call before call `r` has been released. -/
def Caller.Leaving (r : ℕ) (flag : Bool) (c : Caller) : Prop :=
  c.calls + 1 = r ∧ (c.place = .notifying ∨ c.place = .asleep (!flag) ∨ c.place = .awake (!flag))

namespace Meeting

variable {ι : Type}

/-- What a call that has been released leaves behind. -/
def Done (kind : ℕ → Option Call) (s : Meeting ι) (k : ℕ) : Prop :=
  (kind k = some .single ∧ ∃ j, s.executes k = [j] ∧ s.executed k = [j]) ∨
    (kind k = some .barrier ∧ s.executes k = [] ∧ s.executed k = [])

/-- What does not depend on how many threads have come. -/
structure Core (kind : ℕ → Option Call) (s : Meeting ι) : Prop where
  phase : ∀ i, (s.thread i).Current s.released s.barrier.flag ∨
    (s.thread i).Leaving s.released s.barrier.flag
  /-- Who sleeps although the flag has changed is going to be woken. -/
  notified : ∀ i, (s.thread i).place = .asleep (!s.barrier.flag) →
    ∃ j, (s.thread j).place = .notifying
  past : ∀ k < s.released, Done kind s k
  future : ∀ k, s.released < k → s.executes k = [] ∧ s.executed k = []

variable {kind : ℕ → Option Call} {s : Meeting ι} {i : ι}

/-- A thread between two calls, or executing the function, is not being released. -/
theorem Core.calls_eq (h : Core kind s)
    (hp : (s.thread i).place = .between ∨ (s.thread i).place = .running) :
    (s.thread i).calls = s.released := by
  rcases h.phase i with hc | hc
  · exact hc.1
  · rcases hp with hp | hp <;> rcases hc.2 with h' | h' | h' <;> exact absurd (hp.symm.trans h')
      (by simp)

variable [Fintype ι]

/-- The threads that have come. -/
def came (s : Meeting ι) : Finset ι := Finset.univ.filter fun i => (s.thread i).Entered s.released

/-- The call that has not been released. -/
inductive Stage (kind : ℕ → Option Call) (s : Meeting ι) : Prop
  /-- Nobody has come. -/
  | empty (hc : s.came = ∅) (h : s.executes s.released = [] ∧ s.executed s.released = [])
    (hr : ∀ i, (s.thread i).place ≠ .running)
  /-- Some threads have come to a barrier. -/
  | waiting (hk : kind s.released = some .barrier) (hc : s.came ≠ Finset.univ)
    (h : s.executes s.released = [] ∧ s.executed s.released = [])
    (hr : ∀ i, (s.thread i).place ≠ .running)
  /-- A thread executes the function. -/
  | running (j : ι) (hk : kind s.released = some .single) (hj : j ∈ s.came)
    (h : s.executes s.released = [j] ∧ s.executed s.released = [])
    (hr : ∀ i, (s.thread i).place = .running ↔ i = j)
  /-- It has executed the function, and others have not come. -/
  | ran (j : ι) (hk : kind s.released = some .single) (hj : j ∈ s.came) (hc : s.came ≠ Finset.univ)
    (h : s.executes s.released = [j] ∧ s.executed s.released = [j])
    (hr : ∀ i, (s.thread i).place ≠ .running)

/-- What holds in every reachable state. -/
structure Inv (kind : ℕ → Option Call) (s : Meeting ι) : Prop extends Core kind s where
  init : s.barrier.initCount = Fintype.card ι
  /-- The counter counts the threads that have not come, and the one that has executed the function
  twice. -/
  count : s.barrier.hitCount = Fintype.card ι - (s.came.card + (s.executed s.released).length : ℕ)
  stage : Stage kind s

theorem mem_came : i ∈ s.came ↔ (s.thread i).Entered s.released := by
  rw [came, Finset.mem_filter, and_iff_right (Finset.mem_univ i)]

theorem idle_inv (flag : Bool) : Inv kind (idle (Fintype.card ι) flag : Meeting ι) := by
  have hempty : (idle (Fintype.card ι) flag : Meeting ι).came = ∅ := by
    refine Finset.filter_eq_empty_iff.mpr fun i _ h => ?_
    exact h.2 rfl
  refine ⟨⟨fun _ => .inl ⟨rfl, .inl rfl⟩, (fun _ h => nomatch h), (fun _ h => nomatch h),
    fun _ _ => ⟨rfl, rfl⟩⟩, rfl, ?_, .empty hempty ⟨rfl, rfl⟩ (fun _ h => nomatch h)⟩
  rw [hempty]
  exact (Int.sub_zero _).symm

/-- Threads that move without coming or being released. -/
theorem Inv.of_thread (h : Inv kind s) {thread : ι → Caller}
    (hphase : ∀ j, (thread j).Current s.released s.barrier.flag ∨
      (thread j).Leaving s.released s.barrier.flag)
    (hcame : ∀ j, (thread j).Entered s.released ↔ (s.thread j).Entered s.released)
    (hrun : ∀ j, (thread j).place = .running ↔ (s.thread j).place = .running)
    (hnotified : ∀ j, (thread j).place = .asleep (!s.barrier.flag) →
      ∃ j, (thread j).place = .notifying) : Inv kind { s with thread := thread } := by
  have heq : came { s with thread := thread } = s.came := Finset.filter_congr fun j _ => hcame j
  refine ⟨⟨hphase, hnotified, h.past, h.future⟩, h.init, ?_, ?_⟩
  · rw [heq]
    exact h.count
  · cases h.stage with
    | empty hc hx hr => exact .empty (heq.trans hc) hx fun j hj => hr j ((hrun j).mp hj)
    | waiting hk hc hx hr => exact .waiting hk (by rwa [heq]) hx fun j hj => hr j ((hrun j).mp hj)
    | running j hk hj hx hr => exact .running j hk (by rwa [heq]) hx fun j => (hrun j).trans (hr j)
    | ran j hk hj hc hx hr =>
      exact .ran j hk (by rwa [heq]) (by rwa [heq]) hx fun j hj => hr j ((hrun j).mp hj)

end Meeting

end Ps4o
