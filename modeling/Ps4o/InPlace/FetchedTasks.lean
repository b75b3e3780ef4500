import Ps4o.InPlace.QueuedTasks

/-!
# Fetching small tasks

When all big tasks have been partitioned, the threads fetch the small ones from a list, by a counter
that they share.

## What is proved

* `Fetched.step` — every index of a small task is fetched once.
-/

namespace Ps4o.InPlace

namespace TaskLoop

variable {ι : Type} (cfg : Config) (maxSequentialSize n : ℕ) (primary : ι)

/-! ### Small tasks are fetched once -/

/-- Every index is fetched once. -/
structure Fetched (s : TaskLoop ι) : Prop where
  distinct : (s.begun.map Prod.snd).Nodup
  bound : ∀ e ∈ s.begun, e.2 < s.smallTaskIndex ∧ e.2 < s.smallTasks.length
  held : ∀ i k, (s.worker i).doing = .indexing k →
    k < s.smallTaskIndex ∧ k ∉ s.begun.map Prod.snd ∧ ∀ j, (s.worker j).doing = .indexing k → j = i
  all : (∀ i, (s.worker i).doing ≠ .clearing) → ∀ k < s.smallTaskIndex, k < s.smallTasks.length →
    k ∈ s.begun.map Prod.snd ∨ ∃ i, (s.worker i).doing = .indexing k
  finished : ∀ i, (s.worker i).doing = .finished → s.smallTasks.length ≤ s.smallTaskIndex
  sequential : ∀ i task, (s.worker i).doing = .sequential task → ∃ k, (i, k) ∈ s.begun ∧
    s.smallTasks[k]? = some task
  quiet : (∀ i, ¬ (s.worker i).doing.Left) → s.begun = [] ∧
    ((∀ i, (s.worker i).doing ≠ .clearing) → s.smallTaskIndex = 0)

section
variable {s s' : TaskLoop ι} {primary i : ι}

/-- Nobody has fetched an index. -/
theorem Fetched.of_quiet (hl : ∀ i, ¬ (s.worker i).doing.Left) (hb : s.begun = [])
    (hi : (∀ i, (s.worker i).doing ≠ .clearing) → s.smallTaskIndex = 0) : s.Fetched := by
  have hnot : ∀ i d, (s.worker i).doing = d → ¬ d.Left := fun i d hd => hd ▸ hl i
  refine ⟨by simp [hb], by simp [hb], fun i k hd => ?_, fun hc k hk => ?_, fun i hd => ?_,
    fun i task hd => ?_, fun _ => ⟨hb, hi⟩⟩
  · exact (hnot i _ hd trivial).elim
  · rw [hi hc] at hk
    exact absurd hk (Nat.not_lt_zero k)
  · exact (hnot i _ hd trivial).elim
  · exact (hnot i _ hd trivial).elim

variable [DecidableEq ι]

theorem doing_update {w : Worker} (hworker : s'.worker = Function.update s.worker i w) (j : ι) :
    (s'.worker j).doing = if j = i then w.doing else (s.worker j).doing := by
  rw [hworker, Function.update_apply]
  split_ifs <;> rfl

/-- A thread goes on that has nothing to do with an index. -/
theorem Fetched.advance (h : s.Fetched) {w : Worker}
    (hworker : s'.worker = Function.update s.worker i w) (hsmall : s'.smallTasks = s.smallTasks)
    (hindex : s'.smallTaskIndex = s.smallTaskIndex) (hbegun : s'.begun = s.begun)
    (hd : w.doing = (s.worker i).doing ∨ (s.worker i).doing.Bare ∧
    ¬ (s.worker i).doing.Left ∧ w.doing.Bare) : s'.Fetched := by
  have hdoing := doing_update hworker
  rcases hd with hd | ⟨hold, hleft, hnew⟩
  · have hsame : ∀ j, (s'.worker j).doing = (s.worker j).doing := fun j => by
      rw [hdoing]
      split_ifs with hj
      · rw [hd, hj]
      · rfl
    constructor <;> simp only [hsame, hsmall, hindex, hbegun]
    exacts [h.distinct, h.bound, h.held, h.all, h.finished, h.sequential, h.quiet]
  · have hiff : ∀ d : Doing, ¬ d.Bare → ∀ j, (s'.worker j).doing = d ↔ (s.worker j).doing = d := by
      intro d hbare j
      rw [hdoing]
      split_ifs with hj
      · subst hj
        exact iff_of_false (fun he => hbare (he ▸ hnew)) fun he => hbare (he ▸ hold)
      · rfl
    have hindexing : ∀ j k, (s'.worker j).doing = .indexing k ↔ (s.worker j).doing = .indexing k :=
      fun j k => hiff _ id j
    have hclearing : ∀ j, (s'.worker j).doing = .clearing ↔ (s.worker j).doing = .clearing :=
      fun j => hiff _ id j
    have hfinished : ∀ j, (s'.worker j).doing = .finished ↔ (s.worker j).doing = .finished :=
      fun j => hiff _ id j
    have hsequential : ∀ j task, (s'.worker j).doing = .sequential task ↔
        (s.worker j).doing = .sequential task :=
      fun j task => hiff _ id j
    constructor <;> simp only [ne_eq, hindexing, hclearing, hfinished,
      hsequential, hsmall, hindex, hbegun]
    · exact h.distinct
    · exact h.bound
    · exact h.held
    · exact h.all
    · exact h.finished
    · exact h.sequential
    · intro hl
      refine h.quiet fun j hj => ?_
      rcases eq_or_ne j i with rfl | hji
      · exact hleft hj
      · have := hl j
        rw [hdoing, if_neg hji] at this
        exact this hj

/-- A thread fetches an index. -/
theorem Fetched.fetch (h : s.Fetched) (hd : (s.worker i).doing = .fetching) :
    Fetched ({ s with smallTaskIndex := s.smallTaskIndex + 1 }.goTo i
      (.indexing s.smallTaskIndex)) := by
  have hdoing := doing_update (worker_goTo { s with smallTaskIndex := s.smallTaskIndex + 1 } i
    (.indexing s.smallTaskIndex))
  have hother : ∀ j d, d ≠ Doing.fetching → (s.worker j).doing = d → j ≠ i := by
    rintro j d hne hj rfl
    exact hne (hj.symm.trans hd)
  have hheld : ∀ j k, (s.worker j).doing = .indexing k → k < s.smallTaskIndex :=
    fun j k hj => (h.held j k hj).1
  constructor <;> simp only [hdoing, smallTasks_goTo, smallTaskIndex_goTo, begun_goTo]
  · exact h.distinct
  · exact fun e he => ⟨Nat.lt_succ_of_lt (h.bound e he).1, (h.bound e he).2⟩
  · intro j k hj
    split_ifs at hj with hji
    · obtain rfl := Doing.indexing.inj hj
      subst hji
      refine ⟨Nat.lt_succ_self _, fun hmem => ?_, fun j' hj' => ?_⟩
      · obtain ⟨e, he, hk⟩ := List.mem_map.mp hmem
        exact absurd hk (h.bound e he).1.ne
      · split_ifs at hj' with heq
        · exact heq
        · exact absurd (hheld j' _ hj') (lt_irrefl _)
    · obtain ⟨hlt, hmem, huniq⟩ := h.held j k hj
      refine ⟨Nat.lt_succ_of_lt hlt, hmem, fun j' hj' => ?_⟩
      split_ifs at hj' with heq
      · obtain rfl := Doing.indexing.inj hj'
        exact absurd hlt (lt_irrefl _)
      · exact huniq j' hj'
  · intro hc k hk hlen
    have hc' : ∀ j, (s.worker j).doing ≠ .clearing := fun j hj => by
      have := hc j
      rw [if_neg (hother j _ (by simp) hj)] at this
      exact this hj
    rcases Nat.lt_succ_iff_lt_or_eq.mp hk with hk | rfl
    · refine (h.all hc' k hk hlen).imp_right fun ⟨j, hj⟩ => ⟨j, ?_⟩
      rwa [if_neg (hother j _ (by simp) hj)]
    · exact .inr ⟨i, if_pos rfl⟩
  · intro j hj
    split_ifs at hj
    exact (h.finished j hj).trans (Nat.le_succ _)
  · intro j task hj
    split_ifs at hj
    exact h.sequential j task hj
  · intro hl
    have := hl i
    rw [if_pos rfl] at this
    exact absurd trivial this

/-- A thread reads the task with its index. -/
theorem Fetched.index (h : s.Fetched) {k : ℕ} {task : ParallelTask}
    (hd : (s.worker i).doing = .indexing k) (hk : s.smallTasks[k]? = some task) :
    Fetched ({ s with begun := s.begun ++ [(i, k)] }.goTo i (.sequential task)) := by
  have hdoing := doing_update (worker_goTo { s with begun := s.begun ++ [(i, k)] } i
    (.sequential task))
  obtain ⟨hlt, hmem, huniq⟩ := h.held i k hd
  obtain ⟨hlen, -⟩ := List.getElem?_eq_some_iff.mp hk
  constructor <;> simp only [hdoing, smallTasks_goTo, smallTaskIndex_goTo, begun_goTo,
    List.map_append, List.map_cons, List.map_nil]
  · refine List.Nodup.append h.distinct (List.nodup_singleton k) fun k' hk' hk'' => ?_
    obtain rfl := List.mem_singleton.mp hk''
    exact hmem hk'
  · intro e he
    rcases List.mem_append.mp he with he | he
    · exact h.bound e he
    · obtain rfl := List.mem_singleton.mp he
      exact ⟨hlt, hlen⟩
  · intro j k' hj
    split_ifs at hj with hji
    obtain ⟨hlt', hmem', huniq'⟩ := h.held j k' hj
    refine ⟨hlt', fun hin => ?_, fun j' hj' => ?_⟩
    · rcases List.mem_append.mp hin with hin | hin
      · exact hmem' hin
      · obtain rfl := List.mem_singleton.mp hin
        exact hji (huniq j hj)
    · split_ifs at hj' with heq
      exact huniq' j' hj'
  · intro hc k' hk' hlen'
    have hc' : ∀ j, (s.worker j).doing ≠ .clearing := fun j hj => by
      have := hc j
      split_ifs at this with hji
      · rw [hji, hd] at hj
        cases hj
      · exact this hj
    rcases h.all hc' k' hk' hlen' with hin | ⟨j, hj⟩
    · exact .inl (List.mem_append_left _ hin)
    · rcases eq_or_ne j i with rfl | hji
      · obtain rfl := Doing.indexing.inj (hd.symm.trans hj)
        exact .inl (List.mem_append_right _ List.mem_cons_self)
      · exact .inr ⟨j, by rwa [if_neg hji]⟩
  · intro j hj
    split_ifs at hj
    exact h.finished j hj
  · intro j task' hj
    split_ifs at hj with hji
    · obtain rfl := Doing.sequential.inj hj
      subst hji
      exact ⟨k, List.mem_append_right _ List.mem_cons_self, hk⟩
    · obtain ⟨k', hin, hk'⟩ := h.sequential j task' hj
      exact ⟨k', List.mem_append_left _ hin, hk'⟩
  · intro hl
    have := hl i
    rw [if_pos rfl] at this
    exact absurd trivial this

/-- A thread has finished, or has sorted a small task. -/
theorem Fetched.goOn (h : s.Fetched) {d : Doing} (hd : (s.worker i).doing.Left)
    (hnew : d = .fetching ∨ d = .finished)
    (hk : ∀ k, (s.worker i).doing = .indexing k → s.smallTasks.length ≤ k)
    (hfinished : d = .finished → s.smallTasks.length ≤ s.smallTaskIndex) :
    (s.goTo i d).Fetched := by
  have hdoing := doing_update (worker_goTo s i d)
  have hne : d ≠ .clearing ∧ (∀ k, d ≠ .indexing k) ∧ (∀ task, d ≠ .sequential task) ∧ d.Left := by
    rcases hnew with rfl | rfl <;> simp [Doing.Left]
  constructor <;> simp only [hdoing, smallTasks_goTo, smallTaskIndex_goTo, begun_goTo]
  · exact h.distinct
  · exact h.bound
  · intro j k hj
    split_ifs at hj with hji
    · exact absurd hj (hne.2.1 k)
    · obtain ⟨hlt, hmem, huniq⟩ := h.held j k hj
      refine ⟨hlt, hmem, fun j' hj' => ?_⟩
      split_ifs at hj' with heq
      · exact absurd hj' (hne.2.1 k)
      · exact huniq j' hj'
  · intro hc k hlt hlen
    have hc' : ∀ j, (s.worker j).doing ≠ .clearing := fun j hj => by
      have := hc j
      split_ifs at this with hji
      · rw [← hji, hj] at hd
        exact hd
      · exact this hj
    refine (h.all hc' k hlt hlen).imp_right ?_
    rintro ⟨j, hj⟩
    refine ⟨j, ?_⟩
    rcases eq_or_ne j i with rfl | hji
    · exact absurd hlen (Nat.not_lt_of_le (hk k hj))
    · rwa [if_neg hji]
  · intro j hj
    split_ifs at hj
    · exact hfinished hj
    · exact h.finished j hj
  · intro j task hj
    split_ifs at hj
    · exact absurd hj (hne.2.2.1 task)
    · exact h.sequential j task hj
  · intro hl
    have := hl i
    rw [if_pos rfl] at this
    exact absurd hne.2.2.2 this

/-- The primary thread changes the small tasks when nobody reads them. -/
theorem Fetched.step_quiet [Fintype ι] (h : s.Fetched) (hr : s.Rounds primary)
    (hp : (s.worker primary).doing.Queues) {d : Doing} (hd : d.Queues ∨ d = .meeting)
    (hworker : s'.worker = (s.goTo primary d).worker)
    (hindex : s'.smallTaskIndex = s.smallTaskIndex) (hbegun : s'.begun = s.begun) : s'.Fetched := by
  have hdoing := doing_update hworker
  have hclear : ∀ j, (s.worker j).doing ≠ .clearing ∧ ¬ (s.worker j).doing.Left := by
    intro j
    rcases eq_or_ne j primary with rfl | hj
    · constructor
      · intro hc
        rw [hc] at hp
        exact hp
      · intro hl
        cases hdj : (s.worker j).doing <;> simp only [hdj, Doing.Queues, Doing.Left] at hp hl
    · rcases (hr.others hp hj).1 with ⟨task, hdj⟩ | hdj <;> rw [hdj] <;> exact ⟨by simp, id⟩
  obtain ⟨hempty, hzero⟩ := h.quiet fun j => (hclear j).2
  refine .of_quiet (fun j => ?_) (hbegun.trans hempty) fun _ =>
    hindex.trans (hzero fun j => (hclear j).1)
  rw [hdoing]
  split_ifs
  · rcases hd with hd | rfl
    · intro hl
      cases d <;> simp only [Doing.Queues, Doing.Left] at hd hl
    · exact id
  · exact (hclear j).2

/-- **A step fetches no index twice**, and passes over none. -/
theorem Fetched.step [Fintype ι] (h : s.Fetched) (hr : s.Rounds primary) {cfg : Config}
    {maxSequentialSize : ℕ} (hs : Step cfg maxSequentialSize primary i s s') : s'.Fetched := by
  have hplaced := hr.placed i
  cases hs with
  | clear hd =>
    have hleft : ∀ j, ¬ (s.worker j).doing.Left :=
      fun j hl => hr.reads i (by rw [hd]; trivial) (hr.left j hl)
    refine .of_quiet (fun j => ?_) (h.quiet hleft).1 fun _ => rfl
    rw [doing_update (worker_goTo _ i .reading)]
    split_ifs
    · exact id
    · exact hleft j
  | read hd hb =>
    exact h.advance rfl rfl rfl rfl (.inr ⟨by rw [hd]; trivial, by rw [hd]; exact id, trivial⟩)
  | call hd hm =>
    refine h.advance rfl rfl rfl rfl ?_
    simp only
    split_ifs
    · right
      cases hdoing : (s.worker i).doing <;> simp only [hdoing, Doing.Calls] at hd
      case meeting => exact ⟨trivial, id, trivial⟩
      case partitioning =>
        refine ⟨trivial, id, ?_⟩
        simp only [Doing.returned]
        split_ifs <;> trivial
    · exact .inl rfl
  | sample hp => exact h.advance rfl rfl rfl rfl (.inl rfl)
  | set hd =>
    exact h.advance rfl rfl rfl rfl (.inr ⟨by rw [hd]; trivial, by rw [hd]; exact id, trivial⟩)
  | @pop task o hd ho =>
    simp only [Worker.Placed, hd] at hplaced
    obtain ⟨rfl, -⟩ := hplaced
    exact h.step_quiet (d := .testing task o) hr (by rw [hd]; trivial) (.inl trivial) rfl rfl rfl
  | test hd =>
    simp only [Worker.Placed, hd] at hplaced
    obtain ⟨rfl, -⟩ := hplaced
    refine h.step_quiet hr (by rw [hd]; trivial) (.inl ?_) rfl rfl rfl
    split_ifs <;> trivial
  | @queue task o c rest hd =>
    simp only [Worker.Placed, hd] at hplaced
    obtain ⟨rfl, -⟩ := hplaced
    obtain ⟨hworker, -, -, hindex, hbegun⟩ := queueTask_eq (s := s) cfg maxSequentialSize _
    refine h.step_quiet (d := .queueing task o rest) hr (by rw [hd]; trivial)
      (.inl trivial) ?_ hindex hbegun
    rw [worker_goTo, worker_goTo, hworker]
  | queued hd =>
    simp only [Worker.Placed, hd] at hplaced
    obtain ⟨rfl, -⟩ := hplaced
    exact h.step_quiet (d := .sorting) hr (by rw [hd]; trivial) (.inl trivial) rfl rfl rfl
  | sort hd ht =>
    simp only [Worker.Placed, hd] at hplaced
    obtain ⟨rfl, -⟩ := hplaced
    exact h.step_quiet hr (by rw [hd]; trivial) (.inr rfl) rfl rfl rfl
  | decide hd =>
    refine h.advance rfl rfl rfl rfl (.inr ⟨by rw [hd]; trivial, by rw [hd]; exact id, ?_⟩)
    simp only
    split_ifs <;> trivial
  | fetch hd => exact h.fetch hd
  | index hd hk => exact h.index hd hk
  | @finish k hd hk =>
    refine h.goOn (by rw [hd]; trivial) (.inr rfl) (fun k' hk' => ?_) fun _ =>
      hk.trans (h.held i k hd).1.le
    obtain rfl := Doing.indexing.inj (hd.symm.trans hk')
    exact hk
  | sorted hd =>
    refine h.goOn (by rw [hd]; trivial) (.inl rfl) (fun k' hk' => ?_) fun hf => by cases hf
    rw [hd] at hk'
    cases hk'

end

end TaskLoop

end Ps4o.InPlace
