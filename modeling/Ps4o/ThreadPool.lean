import Ps4o.Arrivals

/-!
# Thread pools

A thread that has something to do for several threads hands it over to the other threads of a thread
pool (`thread_pool.hpp`). They wait at a barrier, do it, and wait at the same barrier until all of
them have done it.

## The model

Both thread pools run the same code: they differ in where their threads come from, in the number of
threads that `numThreads` returns, and in that the threads of a `ThreadJoiningThreadPool` are
released after `queueTasks`, those of a `StdThreadPool` when it is destroyed. Every access to what
they share is one step, and so is every step at the barrier. Thread `0` is the one that calls
`operator()`, once for each element of a list, which is the number of threads it asks for. Functions
are known by the number of the call. `began` and `ended` record how often they have been called, and
with which id; nothing reads the record.

## What is proved

* `Inv` says where each thread can be, from the number of barriers it has come to; `new_inv` — a
  pool that has just been made satisfies it.
* `Inv.resting` — while thread `0` prepares something, the others are on their way to the barrier.
-/

namespace Ps4o

/-! ### The code -/

/-- How far thread `0` is in `Impl::run`. -/
inductive RunStage where
  /-- `func_ = func`. -/
  | setFunc
  /-- `num_threads_ = num_threads`. -/
  | setNumThreads
  /-- `sync_.setNumThreads(num_threads)`. -/
  | setSync
  /-- The first `pool_barrier_.barrier()`. -/
  | first
  /-- `func_(0, num_threads)`. -/
  | call
  /-- In the function; which one. -/
  | inside (f : ℕ)
  /-- The second `pool_barrier_.barrier()`. -/
  | second
  /-- At the end. -/
  | ending
  deriving DecidableEq

/-- Where thread `0` is. -/
inductive CallerPc where
  /-- It calls `operator()`, or is done with that. -/
  | next (j : ℕ)
  /-- In `func(0, 1)`. -/
  | alone (j : ℕ)
  /-- In `Impl::run`, with a number of threads. -/
  | run (j numThreads : ℕ) (stage : RunStage)
  /-- In `queueTasks`, if it is a `ThreadJoiningThreadPool`. -/
  | queueTasks
  /-- `done_ = true`. -/
  | setDone
  /-- The last `pool_barrier_.barrier()`. -/
  | last
  /-- It has released the threads. -/
  | joined
  deriving DecidableEq

/-- Where another thread is in `Impl::main`. -/
inductive WorkerPc where
  /-- The first `pool_barrier_.barrier()`. -/
  | loop
  /-- `if (done_) break`. -/
  | checkDone
  /-- `if (my_id < num_threads_)`. -/
  | checkNumThreads
  /-- `func_(my_id, num_threads_)`. -/
  | call
  /-- In the function; which one, and what it has been told the number of threads is. -/
  | inside (f numThreads : ℕ)
  /-- The second `pool_barrier_.barrier()`. -/
  | second
  /-- It has left. -/
  | left
  deriving DecidableEq

/-- A thread pool with `k` threads besides thread `0`. -/
structure ThreadPool (k : ℕ) where
  /-- `pool_barrier_`, and where the threads are at it. -/
  poolBarrier : Meeting (Fin (k + 1))
  /-- `func_`, if there is any. -/
  func : Option ℕ
  /-- `num_threads_`. -/
  numThreads : ℕ
  /-- The number of threads that meet in `sync_`. -/
  sync : ℕ
  /-- `done_`. -/
  done : Bool
  /-- Thread `0`. -/
  caller : CallerPc
  /-- The other threads. -/
  worker : Fin (k + 1) → WorkerPc
  /-- How often each function has been called with each id. -/
  began : ℕ → ℕ → ℕ
  /-- How often it has returned. -/
  ended : ℕ → ℕ → ℕ

namespace ThreadPool

variable {k : ℕ}

/-- A new thread pool. -/
def new (k : ℕ) : ThreadPool k :=
  ⟨.start (k + 1), none, k + 1, k + 1, false, .next 0, fun _ => .loop, fun _ _ => 0, fun _ _ => 0⟩

/-- All threads only call `barrier`. -/
def calls : ℕ → Option Call := fun _ => some .barrier

/-- `numThreads()`. -/
def size (joining : Bool) (s : ThreadPool k) : ℕ := if joining then s.numThreads else k + 1

/-- A thread is between two barriers. -/
def Free (s : ThreadPool k) (i : Fin (k + 1)) : Prop := (s.poolBarrier.thread i).place = .between

/-- A thread comes to the barrier. -/
def arrive (s : ThreadPool k) (i : Fin (k + 1)) : ThreadPool k :=
  { s with poolBarrier := s.poolBarrier.after i s.poolBarrier.barrier.barrier }

/-- Function `f` is called. -/
def begin (s : ThreadPool k) (f id : ℕ) : ThreadPool k :=
  { s with began := Function.update s.began f (Function.update (s.began f) id (s.began f id + 1)) }

/-- Function `f` returns. -/
def finish (s : ThreadPool k) (f id : ℕ) : ThreadPool k :=
  { s with ended := Function.update s.ended f (Function.update (s.ended f) id (s.ended f id + 1)) }

/-- Another thread goes on. -/
def goOn (s : ThreadPool k) (i : Fin (k + 1)) (pc : WorkerPc) : ThreadPool k :=
  { s with worker := Function.update s.worker i pc }

/-- A step of thread `0`, which calls `operator()` for each of the numbers `nums`. -/
inductive CallerStep (joining : Bool) (nums : List ℕ) (s : ThreadPool k) : ThreadPool k → Prop
  | run {j num : ℕ} (hf : s.Free 0) (hpc : s.caller = .next j) (hj : nums[j]? = some num)
    (hn : 1 < min num (s.size joining)) :
    CallerStep joining nums s { s with caller := .run j (min num (s.size joining)) .setFunc }
  | alone {j num : ℕ} (hf : s.Free 0) (hpc : s.caller = .next j) (hj : nums[j]? = some num)
    (hn : ¬ 1 < min num (s.size joining)) :
      CallerStep joining nums s { s.begin j 0 with caller := .alone j }
  | noMore {j : ℕ} (hf : s.Free 0) (hpc : s.caller = .next j) (hj : nums[j]? = none) :
    CallerStep joining nums s { s with caller := .queueTasks }
  | returnAlone {j : ℕ} (hf : s.Free 0) (hpc : s.caller = .alone j) :
    CallerStep joining nums s { s.finish j 0 with caller := .next (j + 1) }
  | setFunc {j n : ℕ} (hf : s.Free 0) (hpc : s.caller = .run j n .setFunc) :
    CallerStep joining nums s { s with func := some j, caller := .run j n .setNumThreads }
  | setNumThreads {j n : ℕ} (hf : s.Free 0) (hpc : s.caller = .run j n .setNumThreads) :
    CallerStep joining nums s { s with numThreads := n, caller := .run j n .setSync }
  | setSync {j n : ℕ} (hf : s.Free 0) (hpc : s.caller = .run j n .setSync) :
    CallerStep joining nums s { s with sync := n, caller := .run j n .first }
  | first {j n : ℕ} (hf : s.Free 0) (hpc : s.caller = .run j n .first) :
    CallerStep joining nums s { s.arrive 0 with caller := .run j n .call }
  | call {j n f : ℕ} (hf : s.Free 0) (hpc : s.caller = .run j n .call) (hfunc : s.func = some f) :
    CallerStep joining nums s { s.begin f 0 with caller := .run j n (.inside f) }
  | returnCall {j n f : ℕ} (hf : s.Free 0) (hpc : s.caller = .run j n (.inside f)) :
    CallerStep joining nums s { s.finish f 0 with caller := .run j n .second }
  | second {j n : ℕ} (hf : s.Free 0) (hpc : s.caller = .run j n .second) :
    CallerStep joining nums s { s.arrive 0 with caller := .run j n .ending }
  | returnRun {j n : ℕ} (hf : s.Free 0) (hpc : s.caller = .run j n .ending) :
    CallerStep joining nums s { s with caller := .next (j + 1) }
  | queueTasks (hf : s.Free 0) (hpc : s.caller = .queueTasks) :
    CallerStep joining nums s { s with caller := .setDone }
  | setDone (hf : s.Free 0) (hpc : s.caller = .setDone) :
    CallerStep joining nums s { s with done := true, caller := .last }
  | last (hf : s.Free 0) (hpc : s.caller = .last) :
    CallerStep joining nums s { s.arrive 0 with caller := .joined }

/-- A step of another thread. -/
inductive WorkerStep (i : Fin (k + 1)) (s : ThreadPool k) : ThreadPool k → Prop
  | loop (hf : s.Free i) (hpc : s.worker i = .loop) :
    WorkerStep i s ((s.arrive i).goOn i .checkDone)
  | leave (hf : s.Free i) (hpc : s.worker i = .checkDone) (hd : s.done = true) :
    WorkerStep i s (s.goOn i .left)
  | stay (hf : s.Free i) (hpc : s.worker i = .checkDone) (hd : s.done = false) :
    WorkerStep i s (s.goOn i .checkNumThreads)
  | wanted (hf : s.Free i) (hpc : s.worker i = .checkNumThreads) (hn : i.val < s.numThreads) :
    WorkerStep i s (s.goOn i .call)
  | notWanted (hf : s.Free i) (hpc : s.worker i = .checkNumThreads) (hn : ¬ i.val < s.numThreads) :
    WorkerStep i s (s.goOn i .second)
  | call {f : ℕ} (hf : s.Free i) (hpc : s.worker i = .call) (hfunc : s.func = some f) :
    WorkerStep i s ((s.begin f i.val).goOn i (.inside f s.numThreads))
  | returnCall {f n : ℕ} (hf : s.Free i) (hpc : s.worker i = .inside f n) :
    WorkerStep i s ((s.finish f i.val).goOn i .second)
  | second (hf : s.Free i) (hpc : s.worker i = .second) : WorkerStep i s ((s.arrive i).goOn i .loop)

/-- A step at the barrier, of a thread that has come there. -/
inductive BarrierStep (s : ThreadPool k) : ThreadPool k → Prop
  | step {i : Fin (k + 1)} {b : Meeting (Fin (k + 1))} (hf : ¬ s.Free i)
    (hb : Meeting.Step calls i s.poolBarrier b) : BarrierStep s { s with poolBarrier := b }

/-- A thread at the barrier wakes for no reason. -/
inductive Spurious (s : ThreadPool k) : ThreadPool k → Prop
  | wake {i : Fin (k + 1)} {b : Meeting (Fin (k + 1))} (hb : Meeting.Spurious i s.poolBarrier b) :
    Spurious s { s with poolBarrier := b }

/-- A thread takes a step. -/
def Step (joining : Bool) (nums : List ℕ) (s s' : ThreadPool k) : Prop :=
  CallerStep joining nums s s' ∨ (∃ i, i ≠ 0 ∧ WorkerStep i s s') ∨ BarrierStep s s'

/-- The states that can be reached. -/
def Reachable (joining : Bool) (nums : List ℕ) (s : ThreadPool k) : Prop :=
  Relation.ReflTransGen (fun s s' => Step joining nums s s' ∨ Spurious s s') (new k) s

end ThreadPool

/-! ### The invariant -/

/-- Whether thread `0` has come to the first barrier and not to the second one, or to the last
one. -/
def CallerPc.parity : CallerPc → ℕ
  | .run _ _ .call | .run _ _ (.inside _) | .run _ _ .second | .joined => 1
  | _ => 0

/-- Where thread `0` can be while it waits. -/
def CallerPc.Waits : CallerPc → Prop
  | .run _ _ .call | .run _ _ .ending | .joined => True
  | _ => False

/-- The threads have been told what to do. -/
def RunStage.busy : RunStage → Bool
  | .call | .inside _ | .second | .ending => true
  | _ => false

/-- How many calls of `operator()` thread `0` has returned from. -/
def CallerPc.returned (nums : List ℕ) : CallerPc → ℕ
  | .next j | .alone j | .run j _ _ => j
  | _ => nums.length

/-- The call of `operator()` that thread `0` is in. -/
def CallerPc.within : CallerPc → Option ℕ
  | .alone j | .run j _ _ => some j
  | _ => none

/-- Whether a thread has come to the first barrier and not to the second one. -/
def WorkerPc.parity : WorkerPc → ℕ
  | .loop => 0
  | _ => 1

/-- How often a thread that has come to the first barrier and not to the second one has begun and
ended the function, which it is to do `d` times. -/
def WorkerPc.log (d : ℕ) : WorkerPc → ℕ × ℕ
  | .inside _ _ => (1, 0)
  | .second => (d, d)
  | _ => (0, 0)

/-- How often a thread that has come `a` times has begun and ended the function, if it has come to
the first barrier and not to the second one when this is `b`. -/
def WorkerPc.logAt (pc : WorkerPc) (a b d : ℕ) : ℕ × ℕ :=
  if a < b then (0, 0) else if b < a then (d, d) else pc.log d

theorem WorkerPc.logAt_lt {pc : WorkerPc} {a b d : ℕ} (h : a < b) :
    pc.logAt a b d = (0, 0) := if_pos h

theorem WorkerPc.logAt_gt {pc : WorkerPc} {a b d : ℕ} (h : b < a) : pc.logAt a b d = (d, d) :=
  (if_neg (Nat.lt_asymm h)).trans (if_pos h)

theorem WorkerPc.logAt_eq {pc : WorkerPc} {a b d : ℕ} (h : a = b) : pc.logAt a b d = pc.log d :=
  (if_neg (by omega)).trans (if_neg (by omega))

/-- How often thread `0` has. -/
def RunStage.log : RunStage → ℕ × ℕ
  | .inside _ => (1, 0)
  | .second | .ending => (1, 1)
  | _ => (0, 0)

/-- How many threads execute a function, of `size` threads, when `num` are asked for. -/
def threadsFor (size num : ℕ) : ℕ := if 1 < min num size then min num size else 1

namespace ThreadPool

variable {k : ℕ}

/-- What thread `0` has written. -/
def CallerOk (joining : Bool) (nums : List ℕ) (s : ThreadPool k) : CallerPc → Prop
  | .next j => s.done = false ∧ j ≤ nums.length ∧ (joining = true → j = 0 → s.numThreads = k + 1)
  | .alone j => s.done = false ∧ ∃ num, nums[j]? = some num ∧ ¬ 1 < min num (k + 1)
  | .run j n stage => s.done = false ∧ (∃ num, nums[j]? = some num ∧ n = min num (k + 1)) ∧ 1 < n ∧
    (stage ≠ .setFunc → s.func = some j) ∧
    (stage ≠ .setFunc → stage ≠ .setNumThreads → s.numThreads = n) ∧
      ∀ f, stage = .inside f → f = j
  | .queueTasks | .setDone => s.done = false
  | .last | .joined => s.done = true

/-- Thread `0` waits for the others to execute a function. -/
def Busy (s : ThreadPool k) : Prop := ∃ j n stage, s.caller = .run j n stage ∧ stage.busy = true

/-- What another thread can rely on. -/
def WorkerOk (s : ThreadPool k) (i : Fin (k + 1)) : WorkerPc → Prop
  | .loop | .checkDone => True
  | .checkNumThreads | .second => s.Busy
  | .call => s.Busy ∧ i.val < s.numThreads
  | .inside f n => s.Busy ∧ s.func = some f ∧ n = s.numThreads ∧ i.val < s.numThreads
  | .left => s.caller = .joined

/-- By how much thread `0` is ahead of a thread that has come to the first barrier of this call and
not to the second one. -/
def lag (s : ThreadPool k) : ℕ :=
  match s.caller with
  | .run _ _ .ending => 1
  | _ => 0

/-- Call `j` has executed its function once for each of the ids below `n`. -/
def Complete (s : ThreadPool k) (j n : ℕ) : Prop :=
  ∀ id, s.began j id = (if id < n then 1 else 0) ∧ s.ended j id = if id < n then 1 else 0

/-- It has not executed anything. -/
def Untouched (s : ThreadPool k) (j : ℕ) : Prop := ∀ id, s.began j id = 0 ∧ s.ended j id = 0

/-- What another thread has executed for call `j`. -/
def workerLog (s : ThreadPool k) (n : ℕ) (i : Fin (k + 1)) : ℕ × ℕ :=
  (s.worker i).logAt ((s.poolBarrier.thread i).arrivals + s.lag) (s.poolBarrier.thread 0).arrivals
    (if i.val < n then 1 else 0)

/-- What has been executed for the call that thread `0` is in. -/
def Current (nums : List ℕ) (s : ThreadPool k) : CallerPc → Prop
  | .alone j => ∀ id, s.began j id = (if id = 0 then 1 else 0) ∧ s.ended j id = 0
  | .run j n stage => if stage.busy then
      (s.began j 0, s.ended j 0) = stage.log ∧
      (∀ i : Fin (k + 1), i ≠ 0 → (s.began j i, s.ended j i) = s.workerLog n i) ∧
        ∀ id, k < id → s.began j id = 0 ∧ s.ended j id = 0
    else s.Untouched j
  | pc => s.Untouched (pc.returned nums)

/-- What holds in every reachable state. -/
structure Inv (joining : Bool) (nums : List ℕ) (s : ThreadPool k) : Prop where
  barrier : s.poolBarrier.Inv calls
  callerParity : (s.poolBarrier.thread 0).arrivals % 2 = s.caller.parity
  workerParity : ∀ i ≠ 0, (s.poolBarrier.thread i).arrivals % 2 = (s.worker i).parity
  callerWaits : ¬ s.Free 0 → s.caller.Waits
  workerWaits : ∀ i ≠ 0, ¬ s.Free i → s.worker i = .loop ∨ s.worker i = .checkDone
  callerOk : CallerOk joining nums s s.caller
  workerOk : ∀ i ≠ 0, WorkerOk s i (s.worker i)
  past : ∀ j < s.caller.returned nums, ∀ num, nums[j]? = some num →
    s.Complete j (threadsFor (k + 1) num)
  current : Current nums s s.caller
  future : ∀ j, s.caller.returned nums < j → s.Untouched j
  /-- Nobody waits at a barrier to which thread `0` does not come. -/
  final : s.caller = .joined → ∀ i ≠ 0, (s.poolBarrier.thread i).arrivals ≤
    (s.poolBarrier.thread 0).arrivals

variable {joining : Bool} {nums : List ℕ} {s s' : ThreadPool k} {i : Fin (k + 1)}

theorem new_inv : Inv joining nums (new k) := by
  have hbarrier : (Meeting.start (k + 1) : Meeting (Fin (k + 1))).Inv calls := by
    have h : (Meeting.start (Fintype.card (Fin (k + 1))) : Meeting (Fin (k + 1))).Inv calls :=
      Meeting.idle_inv false
    rwa [Fintype.card_fin] at h
  exact ⟨hbarrier, rfl, fun _ _ => rfl, fun h => absurd rfl h, fun _ _ h => absurd rfl h,
    ⟨rfl, Nat.zero_le _, fun _ _ => rfl⟩, fun _ _ => trivial,
    fun j hj => absurd hj (Nat.not_lt_zero j),
    fun _ => ⟨rfl, rfl⟩, fun _ _ _ => ⟨rfl, rfl⟩, fun h => nomatch h⟩

/-- When a thread is between two barriers, the others have come as often, or are waiting at the next
one. -/
theorem Inv.arrivals_of_free (h : Inv joining nums s) (hi : s.Free i) (j : Fin (k + 1)) :
    (s.poolBarrier.thread j).arrivals = (s.poolBarrier.thread i).arrivals ∨
      ((s.poolBarrier.thread j).arrivals = (s.poolBarrier.thread i).arrivals + 1 ∧ ¬ s.Free j) := by
  rw [h.barrier.arrivals_eq hi]
  exact h.barrier.arrivals_mem j

/-- While thread `0` prepares something, the others are on their way to the barrier. -/
theorem Inv.resting (h : Inv joining nums s) (hf : s.Free 0) (hp : s.caller.parity = 0) :
    ∀ i ≠ 0, s.worker i = .loop ∨ s.worker i = .checkDone := by
  intro i hi
  rcases h.arrivals_of_free hf i with heq | ⟨-, hwait⟩
  · have hpar := h.workerParity i hi
    have hpar₀ := h.callerParity
    rw [heq, hpar₀, hp] at hpar
    cases hw : s.worker i <;> rw [hw] at hpar <;> simp [WorkerPc.parity] at hpar ⊢
  · exact h.workerWaits i hi hwait

/-- When another thread is past the barrier, so is thread `0`, and has either released the threads
or is waiting for them. -/
theorem Inv.busy_or_over (h : Inv joining nums s) (hi : i ≠ 0) (hf : s.Free i)
    (hw : s.worker i ≠ .loop) :
    (s.Busy ∧ (s.poolBarrier.thread 0).arrivals = (s.poolBarrier.thread i).arrivals + s.lag) ∨
    s.caller = .joined := by
  have hpar := h.workerParity i hi
  have hpar₀ := h.callerParity
  have hodd : (s.worker i).parity = 1 := by
    cases hpc : s.worker i <;> first | exact absurd hpc hw | rfl
  rw [hodd] at hpar
  rcases h.arrivals_of_free hf 0 with heq | ⟨heq, hwait⟩
  · rw [heq, hpar] at hpar₀
    have hlag : ∀ j n stage, s.caller = .run j n stage → stage ≠ .ending → s.lag = 0 := by
      intro j n stage hc hne
      rw [lag, hc]
      cases stage <;> first | rfl | exact absurd rfl hne
    cases hc : s.caller with
    | run j n stage =>
      rw [hc] at hpar₀
      cases stage with
      | call => exact .inl ⟨⟨j, n, _, hc, rfl⟩, by rw [hlag j n _ hc (by simp), heq]; rfl⟩
      | inside f => exact .inl ⟨⟨j, n, _, hc, rfl⟩, by rw [hlag j n _ hc (by simp), heq]; rfl⟩
      | second => exact .inl ⟨⟨j, n, _, hc, rfl⟩, by rw [hlag j n _ hc (by simp), heq]; rfl⟩
      | _ => cases hpar₀
    | joined => exact .inr rfl
    | _ =>
      rw [hc] at hpar₀
      cases hpar₀
  · have hwaits := h.callerWaits hwait
    have heven : s.caller.parity = 0 := by omega
    cases hc : s.caller with
    | run j n stage =>
      rw [hc] at hwaits heven
      cases stage with
      | ending =>
        refine .inl ⟨⟨j, n, _, hc, rfl⟩, ?_⟩
        rw [lag, hc]
        exact heq
      | call => cases heven
      | _ => exact hwaits.elim
    | joined => exact .inr rfl
    | _ =>
      rw [hc] at hwaits
      exact hwaits.elim

end ThreadPool

end Ps4o
