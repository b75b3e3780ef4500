import Ps4o.InPlace.TaskLoop

/-!
# The rounds of the task loop

All threads go through the task loop together: each round is one big task.

## What is proved

* `Rounds` — all threads are in the same round, or wait at its end, and have read the same tasks in
  the same order; nobody reads while the primary thread queues tasks.
* `Rounds.step` — **every step keeps this**.
* `Rounds.goesOn` — until all threads have finished, some thread can go on.
-/

namespace Ps4o.InPlace

/-! ### Rounds -/

/-- The calls a thread has returned from, and the tasks it has read. -/
def Worker.Placed (isPrimary : Prop) (c : Caller) (w : Worker) : Prop :=
  match w.doing with
  | .clearing => isPrimary ∧ c.place = .between ∧ c.calls = 7 * w.took.length
  | .reading | .deciding | .fetching | .indexing _ | .sequential _ | .finished =>
    c.place = .between ∧ c.calls = 7 * w.took.length
  | .partitioning task k =>
    k < 6 ∧ c.calls + 7 = 7 * w.took.length + k ∧ w.took.getLast? = some task ∧
      (0 < k → w.members = (task.begin, task.stop))
  | .setting task =>
    c.place = .between ∧ c.calls + 6 = 7 * w.took.length ∧ w.took.getLast? = some task
  | .popping task | .testing task _ | .queueing task _ _ =>
    isPrimary ∧ c.place = .between ∧ c.calls + 1 = 7 * w.took.length ∧ w.took.getLast? = some task ∧
      w.members = (task.begin, task.stop)
  | .sorting => isPrimary ∧ c.place = .between ∧ c.calls + 1 = 7 * w.took.length
  | .meeting => c.calls + 1 = 7 * w.took.length

/-- How many tasks the primary thread has read and not yet removed. -/
def Doing.ahead : Doing → ℕ
  | .partitioning _ _ | .setting _ | .popping _ => 1
  | _ => 0

/-- It is about to read a big task. -/
def Doing.Reads : Doing → Prop
  | .clearing | .reading => True
  | _ => False

/-- It has removed a task, and others may be waiting for it. -/
def Doing.Queues : Doing → Prop
  | .popping _ | .testing _ _ | .queueing _ _ _ | .sorting => True
  | _ => False

theorem Worker.Placed.congr {P : Prop} {c c' : Caller} {w : Worker} (h : w.Placed P c)
    (hcalls : c'.calls = c.calls) (hplace : c'.place = .between ↔ c.place = .between) :
    w.Placed P c' := by
  unfold Worker.Placed at h ⊢
  rw [hcalls, hplace]
  exact h

theorem Worker.Placed.inCall {P : Prop} {c c' : Caller} {w : Worker} (h : w.Placed P c)
    (hd : w.doing.Calls) (hcalls : c'.calls = c.calls) : w.Placed P c' := by
  unfold Worker.Placed at h ⊢
  cases hdoing : w.doing <;> simp only [hdoing, Doing.Calls] at hd h ⊢
  case partitioning => rwa [hcalls]
  case meeting => rwa [hcalls]

/-- A call returns. -/
theorem Worker.Placed.returned {P : Prop} [Decidable P] {c c' : Caller} {w : Worker}
    (h : w.Placed P c) (hd : w.doing.Calls) (hc : c' = ⟨c.calls + 1, .between⟩) :
    Worker.Placed P c' { w with doing := w.doing.returned (decide P) } := by
  subst hc
  unfold Worker.Placed at h
  cases hdoing : w.doing <;> simp only [hdoing, Doing.Calls] at hd h
  case meeting => exact ⟨rfl, h⟩
  case partitioning task k =>
    obtain ⟨hk, hcalls, ht, hmembers⟩ := h
    simp only [Doing.returned, show partitionCalls.length = 6 from rfl]
    split_ifs with h₀ h₆ hP
    · exact ⟨rfl, by simp only; omega, ht⟩
    · exact ⟨h₆, by simp only; omega, ht, fun _ => hmembers (by omega)⟩
    · exact ⟨of_decide_eq_true hP, rfl, by simp only; omega, ht, hmembers (by omega)⟩
    · simp only [Worker.Placed]
      omega

/-- Where a call returns, nothing has been read, and nobody leaves the loop. -/
theorem Doing.returned_loop {d : Doing} (hd : d.Calls) (isPrimary : Bool) :
    ¬ (d.returned isPrimary).Reads ∧ ¬ (d.returned isPrimary).Left := by
  cases d <;> simp only [Doing.Calls] at hd
  case meeting => exact ⟨id, id⟩
  case partitioning =>
    simp only [Doing.returned]
    split_ifs <;> exact ⟨id, id⟩

theorem Doing.returned_ahead {d : Doing} (hd : d.Calls) : (d.returned true).ahead = d.ahead := by
  cases d <;> simp only [Doing.Calls] at hd
  case meeting => rfl
  case partitioning =>
    simp only [Doing.returned, if_true]
    split_ifs <;> rfl

theorem callAt_single {k : ℕ} (h : callAt k = some .single) : k % 7 = 0 := by
  have hlt : k % 7 < 7 := Nat.mod_lt k (by omega)
  rw [callAt, show roundCalls.length = 7 from rfl] at h
  interval_cases k % 7 <;> simp [roundCalls, partitionCalls] at h ⊢

theorem exists_callAt (k : ℕ) : callAt k = some .single ∨ callAt k = some .barrier := by
  have hlt : k % 7 < 7 := Nat.mod_lt k (by omega)
  rw [callAt, show roundCalls.length = 7 from rfl]
  interval_cases k % 7 <;> simp [roundCalls, partitionCalls]

namespace TaskLoop

variable {ι : Type}

/-- The tasks that have been removed, and the one that can be read. -/
def order (s : TaskLoop ι) : List ParallelTask :=
  s.partitioned.map Prod.fst ++ s.bigTasks.getLast?.toList

section
variable [DecidableEq ι] (s : TaskLoop ι) (i : ι) (w : Worker) (d : Doing)

@[simp] theorem worker_set : (s.set i w).worker = Function.update s.worker i w := rfl

@[simp] theorem worker_goTo :
    (s.goTo i d).worker = Function.update s.worker i { s.worker i with doing := d } := rfl

@[simp] theorem sync_goTo : (s.goTo i d).sync = s.sync := rfl

@[simp] theorem bigTasks_goTo : (s.goTo i d).bigTasks = s.bigTasks := rfl

@[simp] theorem smallTasks_goTo : (s.goTo i d).smallTasks = s.smallTasks := rfl

@[simp] theorem smallTaskIndex_goTo : (s.goTo i d).smallTaskIndex = s.smallTaskIndex := rfl

@[simp] theorem partitioned_goTo : (s.goTo i d).partitioned = s.partitioned := rfl

@[simp] theorem begun_goTo : (s.goTo i d).begun = s.begun := rfl

@[simp] theorem order_goTo : (s.goTo i d).order = s.order := rfl

end

/-- All threads are in the same round, or at its barrier. -/
structure Rounds [Fintype ι] (primary : ι) (s : TaskLoop ι) : Prop where
  sync : s.sync.Inv callAt
  placed : ∀ i, (s.worker i).Placed (i = primary) (s.sync.thread i)
  took : ∀ i, (s.worker i).took <+: s.order
  reads : ∀ i, (s.worker i).doing.Reads → s.bigTasks ≠ []
  left : ∀ i, (s.worker i).doing.Left → s.bigTasks = []
  popped : s.partitioned.length + (s.worker primary).doing.ahead = (s.worker primary).took.length

section
variable [Fintype ι] {primary i : ι} {s : TaskLoop ι}

/-- While the primary thread queues tasks, the others are at the end of the same round. -/
theorem Rounds.others (h : s.Rounds primary) (hq : (s.worker primary).doing.Queues) {j : ι}
    (hj : j ≠ primary) :
    ((∃ task, (s.worker j).doing = .partitioning task 5) ∨ (s.worker j).doing = .meeting) ∧
      (s.worker j).took.length = (s.worker primary).took.length := by
  have hp : (s.sync.thread primary).place = .between ∧
      (s.sync.thread primary).calls + 1 = 7 * (s.worker primary).took.length := by
    have hplaced := h.placed primary
    unfold Worker.Placed at hplaced
    cases hd : (s.worker primary).doing <;> simp only [hd, Doing.Queues] at hq hplaced
    case popping | testing | queueing => exact ⟨hplaced.2.1, hplaced.2.2.1⟩
    case sorting => exact hplaced.2
  have hreleased := h.sync.calls_eq (.inl hp.1)
  have hbetween : (s.sync.thread j).place = .between → (s.sync.thread j).calls = s.sync.released :=
    fun hb => h.sync.calls_eq (.inl hb)
  have hcalls : (s.sync.thread j).calls = s.sync.released ∨
      (s.sync.thread j).calls + 1 = s.sync.released :=
    (h.sync.phase j).imp And.left And.left
  have hplaced := h.placed j
  unfold Worker.Placed at hplaced
  cases hd : (s.worker j).doing <;> simp only [hd] at hplaced
  case clearing => exact absurd hplaced.1 hj
  case popping | testing | queueing | sorting => exact absurd hplaced.1 hj
  case reading | deciding | fetching | indexing | sequential | finished =>
    have := hbetween hplaced.1
    omega
  case setting =>
    have := hbetween hplaced.1
    omega
  case partitioning task k =>
    obtain ⟨hk, hcount, -, -⟩ := hplaced
    obtain rfl : k = 5 := by omega
    exact ⟨.inl ⟨task, rfl⟩, by omega⟩
  case meeting => exact ⟨.inr rfl, by omega⟩

/-- Who is between two rounds has seen what has been partitioned. -/
theorem Rounds.length_eq (h : s.Rounds primary) (hb : (s.sync.thread i).place = .between)
    (hc : (s.sync.thread i).calls = 7 * (s.worker i).took.length) :
    s.partitioned.length = (s.worker i).took.length := by
  have hreleased := h.sync.calls_eq (.inl hb)
  have hbetween : (s.sync.thread primary).place = .between →
      (s.sync.thread primary).calls = s.sync.released :=
    fun hb => h.sync.calls_eq (.inl hb)
  have hcalls : (s.sync.thread primary).calls = s.sync.released ∨
      (s.sync.thread primary).calls + 1 = s.sync.released :=
    (h.sync.phase primary).imp And.left And.left
  have hplaced := h.placed primary
  have hpopped := h.popped
  unfold Worker.Placed at hplaced
  cases hd : (s.worker primary).doing <;> simp only [hd, Doing.ahead] at hplaced hpopped
  case clearing =>
    have := hbetween hplaced.2.1
    omega
  case reading | deciding | fetching | indexing | sequential | finished =>
    have := hbetween hplaced.1
    omega
  case partitioning =>
    obtain ⟨hk, hcount, -, -⟩ := hplaced
    omega
  case setting =>
    have := hbetween hplaced.1
    omega
  case popping | testing | queueing =>
    have := hbetween hplaced.2.1
    omega
  case sorting =>
    have := hbetween hplaced.2.1
    omega
  case meeting => omega

variable [DecidableEq ι]


/-- A thread goes on, and the tasks stay where they are. -/
theorem Rounds.advance (h : s.Rounds primary) {s' : TaskLoop ι} {w : Worker}
    (hworker : s'.worker = Function.update s.worker i w) (hsync : s'.sync.Inv callAt)
    (hother : ∀ j, j ≠ i → (s'.sync.thread j).calls = (s.sync.thread j).calls ∧
      ((s'.sync.thread j).place = .between ↔ (s.sync.thread j).place = .between))
    (hbig : s'.bigTasks = s.bigTasks) (hpartitioned : s'.partitioned = s.partitioned)
    (hplaced : w.Placed (i = primary) (s'.sync.thread i)) (htook : w.took <+: s.order)
    (hreads : w.doing.Reads → s.bigTasks ≠ []) (hleft : w.doing.Left → s.bigTasks = [])
    (hahead : i = primary → s.partitioned.length + w.doing.ahead = w.took.length) :
    s'.Rounds primary := by
  have horder : s'.order = s.order := by rw [order, order, hbig, hpartitioned]
  refine ⟨hsync, fun j => ?_, fun j => ?_, fun j => ?_, fun j => ?_, ?_⟩
  · rcases eq_or_ne j i with rfl | hj
    · rwa [hworker, Function.update_self]
    · rw [hworker, Function.update_of_ne hj]
      exact (h.placed j).congr (hother j hj).1 (hother j hj).2
  · rcases eq_or_ne j i with rfl | hj
    · rwa [hworker, horder, Function.update_self]
    · rw [hworker, horder, Function.update_of_ne hj]
      exact h.took j
  · rcases eq_or_ne j i with rfl | hj
    · rwa [hworker, hbig, Function.update_self]
    · rw [hworker, hbig, Function.update_of_ne hj]
      exact h.reads j
  · rcases eq_or_ne j i with rfl | hj
    · rwa [hworker, hbig, Function.update_self]
    · rw [hworker, hbig, Function.update_of_ne hj]
      exact h.left j
  · rcases eq_or_ne primary i with rfl | hi
    · rw [hworker, hpartitioned, Function.update_self]
      exact hahead rfl
    · rw [hworker, hpartitioned, Function.update_of_ne hi]
      exact h.popped

/-- A thread is somewhere else, between the same two calls, and has read and removed as many
tasks. -/
theorem Rounds.moved (h : s.Rounds primary) {s' : TaskLoop ι} {d : Doing}
    (hworker : s'.worker = (s.goTo i d).worker) (hsync : s'.sync = s.sync)
    (hbig : s'.bigTasks = s.bigTasks) (hpartitioned : s'.partitioned = s.partitioned)
    (hplaced : Worker.Placed (i = primary) (s.sync.thread i) { s.worker i with doing := d })
    (hreads : d.Reads → s.bigTasks ≠ []) (hleft : d.Left → s.bigTasks = [])
    (hahead : d.ahead = (s.worker i).doing.ahead) : s'.Rounds primary := by
  refine h.advance hworker (hsync ▸ h.sync) (fun j _ => ?_) hbig hpartitioned ?_
    (h.took i) hreads hleft fun hi => ?_
  · rw [hsync]
    exact ⟨rfl, Iff.rfl⟩
  · rwa [hsync]
  · subst hi
    rw [hahead]
    exact h.popped

omit [DecidableEq ι] in
/-- The task that the primary thread has read is still the last one. -/
theorem Rounds.last_eq (h : s.Rounds primary) {task : ParallelTask}
    (ha : (s.worker primary).doing.ahead = 1) (ht : (s.worker primary).took.getLast? = some task) :
    s.bigTasks.getLast? = some task := by
  have hpopped := h.popped
  have hprefix := h.took primary
  have hle := hprefix.length_le
  rw [order] at hprefix hle
  cases hl : s.bigTasks.getLast? with
  | none =>
    rw [hl] at hle
    simp at hle
    omega
  | some x =>
    rw [hl] at hprefix
    have heq := hprefix.eq_of_length (by simp; omega)
    rw [heq] at ht
    simpa using ht

/-- A call of the barrier. -/
theorem Rounds.call (h : s.Rounds primary) {m : Meeting ι} (hd : (s.worker i).doing.Calls)
    (hm : Meeting.Step callAt i s.sync m) : Rounds primary ({ s with sync := m }.goTo i
      (if (m.thread i).place = Place.between then (s.worker i).doing.returned (i = primary)
        else (s.worker i).doing)) := by
  have hpopped := h.popped
  rcases hm.self with ⟨hcalls, hplace⟩ | hreturned
  · rw [if_neg hplace]
    refine h.advance rfl (h.sync.step hm) (fun j hj => hm.other hj) rfl rfl
      ((h.placed i).inCall hd hcalls) (h.took i) (h.reads i) (h.left i) fun hi => hi ▸ hpopped
  · rw [if_pos (by rw [hreturned])]
    refine h.advance rfl (h.sync.step hm) (fun j hj => hm.other hj) rfl rfl ?_ (h.took i)
      (fun hr => ?_) (fun hl => ?_) fun hi => ?_
    · exact (h.placed i).returned hd hreturned
    · exact absurd hr (Doing.returned_loop hd _).1
    · exact absurd hl (Doing.returned_loop hd _).2
    · subst hi
      rw [← hpopped]
      simp only [decide_true, Doing.returned_ahead hd]

/-- The primary thread goes on queueing, and the others wait. -/
theorem Rounds.alone (h : s.Rounds primary) (hq : (s.worker primary).doing.Queues)
    {s' : TaskLoop ι} {d : Doing} (hworker : s'.worker = (s.goTo primary d).worker)
    (hsync : s'.sync = s.sync)
    (hplaced : Worker.Placed (primary = primary) (s.sync.thread primary)
    { s.worker primary with doing := d }) (hloop : ¬ d.Reads ∧ ¬ d.Left)
    (htook : ∀ j, (s.worker j).took <+: s'.order)
    (hpopped : s'.partitioned.length + d.ahead = (s.worker primary).took.length) :
        s'.Rounds primary := by
  have hothers : ∀ j, j ≠ primary → ¬ (s.worker j).doing.Reads ∧ ¬ (s.worker j).doing.Left := by
    intro j hj
    rcases (h.others hq hj).1 with ⟨t, hdj⟩ | hdj <;> rw [hdj] <;> exact ⟨id, id⟩
  have hself : s'.worker primary = { s.worker primary with doing := d } := by
    rw [hworker, worker_goTo, Function.update_self]
  have hother : ∀ j, j ≠ primary → s'.worker j = s.worker j := fun j hj => by
    rw [hworker, worker_goTo, Function.update_of_ne hj]
  refine ⟨hsync ▸ h.sync, fun j => ?_, fun j => ?_, fun j hr => ?_,
    fun j hl => ?_, by rwa [hself]⟩ <;>
    rcases eq_or_ne j primary with rfl | hj
  · rwa [hself, hsync]
  · rw [hother j hj, hsync]
    exact h.placed j
  · rw [hself]
    exact htook j
  · rw [hother j hj]
    exact htook j
  · rw [hself] at hr
    exact absurd hr hloop.1
  · rw [hother j hj] at hr
    exact absurd hr (hothers j hj).1
  · rw [hself] at hl
    exact absurd hl hloop.2
  · rw [hother j hj] at hl
    exact absurd hl (hothers j hj).2

/-- The task that has been partitioned is removed. -/
theorem Rounds.pop (h : s.Rounds primary) {task : ParallelTask} {o : Outcome}
    (hd : (s.worker i).doing = .popping task) : Rounds primary ({ s with
      bigTasks := s.bigTasks.dropLast
      partitioned := s.partitioned ++ [(task, o)] }.goTo i (.testing task o)) := by
  have hplaced := h.placed i
  have hpopped := h.popped
  simp only [Worker.Placed, hd] at hplaced
  obtain ⟨rfl, hb, hcalls, ht, hmembers⟩ := hplaced
  have hlast := h.last_eq (by rw [hd]; rfl) ht
  have horder : s.order = s.partitioned.map Prod.fst ++ [task] := by
    rw [order, hlast, Option.toList_some]
  refine h.alone (by rw [hd]; trivial) rfl rfl ⟨rfl, hb, hcalls, ht, hmembers⟩
    ⟨id, id⟩ (fun j => ?_) ?_
  · refine (h.took j).trans ?_
    rw [horder]
    rw [order_goTo, order, List.map_append]
    exact List.prefix_append _ _
  · simp only [hd, Doing.ahead] at hpopped
    simp only [Doing.ahead, partitioned_goTo, List.length_append, List.length_singleton]
    omega

omit [Fintype ι] [DecidableEq ι] in
theorem queueTask_eq (cfg : Config) (maxSequentialSize : ℕ) (task : ParallelTask) :
    (s.queueTask cfg maxSequentialSize task).worker = s.worker ∧
      (s.queueTask cfg maxSequentialSize task).sync = s.sync ∧
      (s.queueTask cfg maxSequentialSize task).partitioned = s.partitioned ∧
      (s.queueTask cfg maxSequentialSize task).smallTaskIndex = s.smallTaskIndex ∧
      (s.queueTask cfg maxSequentialSize task).begun = s.begun := by
  unfold queueTask
  split_ifs <;> exact ⟨rfl, rfl, rfl, rfl, rfl⟩

/-- A bucket is queued. -/
theorem Rounds.queue (h : s.Rounds primary) {task : ParallelTask} {o : Outcome} {c : ℕ}
    {rest : List ℕ} {cfg : Config} {maxSequentialSize : ℕ}
    (hd : (s.worker i).doing = .queueing task o (c :: rest)) :
    Rounds primary ((s.queueTask cfg maxSequentialSize (o.subtask task c)).goTo i
      (.queueing task o rest)) := by
  have hplaced := h.placed i
  have hpopped := h.popped
  simp only [Worker.Placed, hd] at hplaced
  obtain ⟨rfl, hb, hcalls, ht, hmembers⟩ := hplaced
  simp only [hd, Doing.ahead] at hpopped
  have hq : (s.worker i).doing.Queues := by
    rw [hd]
    trivial
  obtain ⟨hworker, hsync, hpartitioned, -, -⟩ :=
    queueTask_eq (s := s) cfg maxSequentialSize (o.subtask task c)
  refine h.alone (d := .queueing task o rest) hq ?_ hsync ⟨rfl, hb, hcalls, ht, hmembers⟩
    ⟨id, id⟩ (fun j => ?_) ?_
  · simp only [worker_goTo, hworker]
  · -- all have read the tasks that have been removed, and no other
    have hprefix : (s.worker j).took <+: s.partitioned.map Prod.fst := by
      refine List.prefix_of_prefix_length_le (h.took j) (List.prefix_append _ _) ?_
      rw [List.length_map]
      rcases eq_or_ne j i with rfl | hj
      · omega
      · rw [(h.others hq hj).2]
        omega
    refine hprefix.trans ?_
    rw [order_goTo, order, hpartitioned]
    exact List.prefix_append _ _
  · rw [partitioned_goTo, hpartitioned]
    exact hpopped

/-- A thread that is between two rounds can read the last task, and no other thread has read another
one. -/
theorem Rounds.read (h : s.Rounds primary) {task : ParallelTask}
    (hd : (s.worker i).doing = .reading) (hb : s.bigTasks.getLast? = some task) :
    Rounds primary (s.set i { s.worker
      i with doing := .partitioning task 0, took := (s.worker i).took ++ [task] }) := by
  have hplaced := h.placed i
  simp only [Worker.Placed, hd] at hplaced
  have hlen := h.length_eq hplaced.1 hplaced.2
  have htook : (s.worker i).took = s.partitioned.map Prod.fst := by
    have hprefix := List.prefix_of_prefix_length_le (h.took i)
      (List.prefix_append (s.partitioned.map Prod.fst) _) (by rw [List.length_map, hlen])
    exact hprefix.eq_of_length (by rw [List.length_map, hlen])
  refine h.advance rfl h.sync (fun j _ => ⟨rfl, Iff.rfl⟩) rfl rfl ?_ ?_ (fun hr => hr.elim)
    (fun hl => hl.elim) fun hi => ?_
  · have hcalls : (s.sync.thread i).calls = 7 * (s.worker i).took.length := hplaced.2
    refine ⟨by omega, ?_, List.getLast?_concat, fun hk => absurd hk (by omega)⟩
    simp only [TaskLoop.set, List.length_append, List.length_singleton]
    omega
  · rw [order, hb, Option.toList_some, htook]
  · simp only [Doing.ahead, List.length_append, List.length_singleton]
    omega

/-- **A step leaves all threads in the same round.** -/
theorem Rounds.step (h : s.Rounds primary) {s' : TaskLoop ι} {cfg : Config} {maxSequentialSize : ℕ}
    (hs : Step cfg maxSequentialSize primary i s s') : s'.Rounds primary := by
  have hplaced := h.placed i
  have hreads := h.reads i
  have hleft := h.left i
  cases hs with
  | clear hd =>
    simp only [Worker.Placed, hd, Doing.Reads] at hplaced hreads
    exact h.moved rfl rfl rfl rfl hplaced.2 (fun _ => hreads trivial)
      (fun hl => hl.elim) (by rw [hd]; rfl)
  | read hd hb => exact h.read hd hb
  | call hd hm => exact h.call hd hm
  | sample hp =>
    refine h.advance rfl h.sync (fun j _ => ⟨rfl, Iff.rfl⟩) rfl rfl ?_ (h.took i) hreads hleft
      fun hi => hi ▸ h.popped
    have hsingle := callAt_single (h.sync.single_of_running hp)
    unfold Worker.Placed at hplaced ⊢
    cases hd : (s.worker i).doing <;> simp only [hd] at hplaced ⊢
    case partitioning task k =>
      obtain ⟨hk, hcalls, ht, -⟩ := hplaced
      exact ⟨hk, hcalls, ht, fun hpos => by omega⟩
    case meeting => exact hplaced
    case reading | deciding | fetching | indexing | sequential | finished => exact hplaced
    case clearing | setting | sorting => exact hplaced
    case popping | testing | queueing => exact absurd (hp.symm.trans hplaced.2.1) (by simp)
  | set hd =>
    simp only [Worker.Placed, hd] at hplaced
    refine h.advance rfl h.sync (fun j _ => ⟨rfl, Iff.rfl⟩) rfl rfl ?_ (h.took i)
      (fun hr => hr.elim) (fun hl => hl.elim) fun hi => ?_
    · exact ⟨by omega, by simp only [TaskLoop.set]; omega, hplaced.2.2, fun _ => rfl⟩
    · have hpopped := h.popped
      subst hi
      simpa only [hd, Doing.ahead] using hpopped
  | pop hd ho => exact h.pop hd
  | test hd =>
    simp only [Worker.Placed, hd] at hplaced
    obtain ⟨hi, hb, hcalls, ht, hmembers⟩ := hplaced
    split_ifs
    · exact h.moved rfl rfl rfl rfl ⟨hi, hb, hcalls⟩ (fun hr => hr.elim)
        (fun hl => hl.elim) (by rw [hd]; rfl)
    · exact h.moved rfl rfl rfl rfl ⟨hi, hb, hcalls, ht, hmembers⟩ (fun hr => hr.elim)
        (fun hl => hl.elim) (by rw [hd]; rfl)
  | queue hd => exact h.queue hd
  | queued hd =>
    simp only [Worker.Placed, hd] at hplaced
    obtain ⟨hi, hb, hcalls, -, -⟩ := hplaced
    exact h.moved rfl rfl rfl rfl ⟨hi, hb, hcalls⟩ (fun hr => hr.elim)
      (fun hl => hl.elim) (by rw [hd]; rfl)
  | sort hd ht =>
    simp only [Worker.Placed, hd] at hplaced
    exact h.moved rfl rfl rfl rfl hplaced.2.2 (fun hr => hr.elim)
      (fun hl => hl.elim) (by rw [hd]; rfl)
  | decide hd =>
    simp only [Worker.Placed, hd] at hplaced
    split_ifs with hb
    · exact h.moved rfl rfl rfl rfl hplaced (fun hr => hr.elim) (fun _ => hb) (by rw [hd]; rfl)
    · exact h.moved rfl rfl rfl rfl hplaced (fun _ => hb) (fun hl => hl.elim) (by rw [hd]; rfl)
  | fetch hd =>
    simp only [Worker.Placed, hd, Doing.Left] at hplaced hleft
    exact h.moved rfl rfl rfl rfl hplaced (fun hr => hr.elim)
      (fun _ => hleft trivial) (by rw [hd]; rfl)
  | index hd hk =>
    simp only [Worker.Placed, hd, Doing.Left] at hplaced hleft
    exact h.moved rfl rfl rfl rfl hplaced (fun hr => hr.elim)
      (fun _ => hleft trivial) (by rw [hd]; rfl)
  | finish hd hk =>
    simp only [Worker.Placed, hd, Doing.Left] at hplaced hleft
    exact h.moved rfl rfl rfl rfl hplaced (fun hr => hr.elim)
      (fun _ => hleft trivial) (by rw [hd]; rfl)
  | sorted hd =>
    simp only [Worker.Placed, hd, Doing.Left] at hplaced hleft
    exact h.moved rfl rfl rfl rfl hplaced (fun hr => hr.elim)
      (fun _ => hleft trivial) (by rw [hd]; rfl)

end

end TaskLoop

/-! ### Some thread can go on -/

/-- A bucket that takes everything. -/
theorem exists_bounds (n : ℕ) : ∃ o : Outcome, o.Bounds n := by
  refine ⟨⟨1, false, fun b => if b = 0 then 0 else n⟩,
    ⟨le_rfl, nofun, rfl, rfl, fun b hb => ?_⟩, nofun⟩
  obtain rfl : b = 0 := Nat.lt_one_iff.mp hb
  exact Nat.zero_le n

/-- Tasks can be sorted by size. -/
theorem exists_sort (tasks : List ParallelTask) : ∃ tasks' : List ParallelTask,
    tasks'.Perm tasks ∧ tasks'.Pairwise fun t u => u.size ≤ t.size := by
  refine ⟨tasks.mergeSort fun t u => u.size ≤ t.size, List.mergeSort_perm _ _, ?_⟩
  refine (List.pairwise_mergeSort (fun a b c hab hbc => ?_) (fun a b => ?_) _).imp of_decide_eq_true
  · exact decide_eq_true ((of_decide_eq_true hbc).trans (of_decide_eq_true hab))
  · simpa using Nat.le_total _ _

namespace TaskLoop

section
variable {ι : Type} [Fintype ι] [DecidableEq ι] {s : TaskLoop ι} {primary i : ι} {n : ℕ}

theorem Start.rounds (h : s.Start primary n (Fintype.card ι)) : s.Rounds primary := by
  obtain ⟨flag, hsync⟩ := h.sync
  refine ⟨?_, fun i => ?_, fun i => ?_, fun i _ => ?_, fun i hl => ?_, ?_⟩
  · rw [hsync]
    exact Meeting.idle_inv flag
  · simp only [Worker.Placed, h.doing i, hsync, Meeting.idle, h.took i]
    by_cases hi : i = primary
    · simp [hi]
    · simp [hi]
  · rw [h.took i]
    exact List.nil_prefix
  · rw [h.bigTasks]
    exact List.cons_ne_nil _ _
  · rw [h.doing i] at hl
    split_ifs at hl <;> exact hl.elim
  · rw [h.partitioned, h.took, h.doing, if_pos rfl]
    rfl

omit [DecidableEq ι] in
/-- When a thread has left the loop, all have read the tasks that have been partitioned. -/
theorem Rounds.took_eq (h : s.Rounds primary) (hi : (s.worker i).doing.Left) (j : ι) :
    (s.worker j).took = s.partitioned.map Prod.fst := by
  have hbig := h.left i hi
  have hplacedi : (s.sync.thread i).place = .between ∧ (s.sync.thread i).calls =
      7 * (s.worker i).took.length := by
    have hplaced := h.placed i
    unfold Worker.Placed at hplaced
    cases hd : (s.worker i).doing <;> simp only [hd, Doing.Left] at hi hplaced
    case fetching | indexing | sequential | finished => exact hplaced
  have hlen := h.length_eq hplacedi.1 hplacedi.2
  have hreleased := h.sync.calls_eq (.inl hplacedi.1)
  have hprefix := h.took j
  rw [order, hbig, List.getLast?_nil, Option.toList_none, List.append_nil] at hprefix
  have hle := hprefix.length_le
  refine hprefix.eq_of_length ?_
  rw [List.length_map] at hle ⊢
  have hbetween : (s.sync.thread j).place = .between → (s.sync.thread j).calls = s.sync.released :=
    fun hb => h.sync.calls_eq (.inl hb)
  have hcalls : (s.sync.thread j).calls = s.sync.released ∨
      (s.sync.thread j).calls + 1 = s.sync.released :=
    (h.sync.phase j).imp And.left And.left
  have hreads := h.reads j
  have hplaced := h.placed j
  unfold Worker.Placed at hplaced
  cases hd : (s.worker j).doing <;> simp only [hd, Doing.Reads] at hplaced hreads
  case clearing | reading => exact absurd hbig (hreads trivial)
  case deciding | fetching | indexing | sequential | finished =>
    have := hbetween hplaced.1
    omega
  case partitioning => omega
  case setting =>
    have := hbetween hplaced.1
    omega
  case popping | testing | queueing | sorting =>
    have := hbetween hplaced.2.1
    omega
  case meeting => omega

/-- Until all threads have finished, some thread can go on. -/
theorem Rounds.goesOn {cfg : Config} {maxSequentialSize : ℕ} (h : s.Rounds primary) :
    (∀ i, (s.worker i).doing = .finished) ∨ ∃ i s', Step cfg maxSequentialSize primary i s s' := by
  by_contra hnot
  obtain ⟨hleft, hstuck⟩ := not_or.mp hnot
  have hstuck : ∀ i s', ¬ Step cfg maxSequentialSize primary i s s' :=
    fun i s' hs => hstuck ⟨i, s', hs⟩
  have hdoing : ∀ i, (s.worker i).doing = .finished ∨ (s.worker i).doing.Calls := by
    intro i
    cases hd : (s.worker i).doing with
    | clearing => exact (hstuck i _ (.clear hd)).elim
    | reading =>
      have hb := h.reads i (by rw [hd]; trivial)
      exact (hstuck i _ (.read hd (List.getLast?_eq_some_getLast hb))).elim
    | partitioning => exact .inr trivial
    | setting => exact (hstuck i _ (.set hd)).elim
    | popping task =>
      obtain ⟨o, ho⟩ := exists_bounds task.size
      exact (hstuck i _ (.pop hd ho)).elim
    | testing => exact (hstuck i _ (.test hd)).elim
    | queueing task o rest =>
      cases rest with
      | nil => exact (hstuck i _ (.queued hd)).elim
      | cons => exact (hstuck i _ (.queue hd)).elim
    | sorting =>
      obtain ⟨tasks, hperm, hsorted⟩ := exists_sort s.smallTasks
      by_cases hb : s.bigTasks = []
      · exact (hstuck i _ (.sort hd (by rw [if_pos hb]; exact ⟨hperm, hsorted⟩))).elim
      · exact (hstuck i _ (.sort hd (by rw [if_neg hb]))).elim
    | meeting => exact .inr trivial
    | deciding => exact (hstuck i _ (.decide hd)).elim
    | fetching => exact (hstuck i _ (.fetch hd)).elim
    | indexing k =>
      rcases Nat.lt_or_ge k s.smallTasks.length with hk | hk
      · exact (hstuck i _ (.index hd (List.getElem?_eq_getElem hk))).elim
      · exact (hstuck i _ (.finish hd hk)).elim
    | sequential => exact (hstuck i _ (.sorted hd)).elim
    | finished => exact .inl rfl
  -- whoever calls the barrier sleeps in it, and has not been released
  have hasleep : ∀ i, (s.worker i).doing.Calls → (s.sync.thread i).Entered s.sync.released ∧
      (s.sync.thread i).place ≠ .running := by
    intro i hd
    have hmeet : ∀ m, ¬ Meeting.Step callAt i s.sync m := fun m hm => hstuck i _ (.call hd hm)
    cases hp : (s.sync.thread i).place with
    | between =>
      rcases exists_callAt (s.sync.thread i).calls with hk | hk
      · exact (hmeet _ (.single hp hk)).elim
      · exact (hmeet _ (.barrier hp hk)).elim
    | running => exact (hmeet _ (.finish hp)).elim
    | awake f =>
      by_cases hf : f = s.sync.barrier.flag
      · exact (hmeet _ (.stay hp hf)).elim
      · exact (hmeet _ (.leave hp hf)).elim
    | notifying => exact (hmeet _ (.notify hp)).elim
    | asleep f =>
      refine ⟨?_, by simp⟩
      rcases h.sync.seen (.inl hp) with hc | hc
      · exact ⟨hc.1, by simp [hp]⟩
      · obtain ⟨j, hj⟩ := h.sync.notified i (hc.2 ▸ hp)
        rcases hdoing j with hdj | hdj
        · have hplaced := h.placed j
          simp only [Worker.Placed, hdj] at hplaced
          exact absurd (hj.symm.trans hplaced.1) (by simp)
        · exact (hstuck j _ (.call hdj (.notify hj))).elim
  obtain ⟨i, hi⟩ := not_forall.mp hleft
  have hcalls := (hdoing i).resolve_left hi
  have hall : ∀ j, (s.worker j).doing.Calls := by
    intro j
    refine (hdoing j).resolve_left fun hdj => ?_
    -- a thread that has finished has seen that there are no big tasks
    have hplaced := h.placed j
    simp only [Worker.Placed, hdj] at hplaced
    have hlen := h.length_eq hplaced.1 hplaced.2
    have hreleased := h.sync.calls_eq (.inl hplaced.1)
    have hle := (h.took i).length_le
    rw [order, h.left j (by rw [hdj]; trivial)] at hle
    simp only [List.getLast?_nil, Option.toList_none, List.append_nil, List.length_map] at hle
    have hentered := (hasleep i hcalls).1.1
    have hplacedi := h.placed i
    unfold Worker.Placed at hplacedi
    cases hd : (s.worker i).doing <;> simp only [hd, Doing.Calls] at hcalls hplacedi
    case partitioning => omega
    case meeting => omega
  have hcame : s.sync.came = Finset.univ :=
    Finset.filter_true_of_mem fun j _ => (hasleep j (hall j)).1
  cases h.sync.stage with
  | empty hc => exact Finset.notMem_empty i (hc ▸ hcame ▸ Finset.mem_univ i)
  | waiting _ hc => exact hc hcame
  | running j _ _ _ hr => exact (hasleep j (hall j)).2 ((hr j).mpr rfl)
  | ran _ _ _ hc => exact hc hcame

end

end TaskLoop

end Ps4o.InPlace
