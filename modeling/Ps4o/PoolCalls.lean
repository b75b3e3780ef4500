import Ps4o.PoolWorkers

/-!
# Calls of a thread pool

What the invariant says of the calls, in all states that a pool can come to.

## What is proved

* `Inv.atMostOnce` — a function is called at most once with each id.
* `Inv.goesOn` — there is a thread that can go on.
* `threadPool_sound` — **each call executes its function once for every id, and returns when this
  has ended; no thread executes a function of another call; no thread leaves before `queueTasks` has
  finished; and there is always a thread that can go on**.
-/

namespace Ps4o

namespace ThreadPool

variable {k : ℕ}
variable {joining : Bool} {nums : List ℕ} {s s' : ThreadPool k} {i : Fin (k + 1)}

/-! ### Handing work over -/

/-- What the users of a thread pool can rely on. -/
structure HandedOver (joining : Bool) (nums : List ℕ) (s : ThreadPool k) : Prop where
  /-- A call has executed its function once for every id below the number of threads, and for no
  other id, when it returns. -/
  complete : ∀ j < s.caller.returned nums, ∀ num, nums[j]? = some num →
    s.Complete j (min num (k + 1))
  /-- It never executes it twice, or for another id. -/
  atMostOnce : ∀ j num, nums[j]? = some num → ∀ id, s.ended j id ≤ s.began j id ∧
    s.began j id ≤ if id < min num (k + 1) then 1 else 0
  /-- A thread that executes a function executes that of the call that thread `0` is in, and has
  been told for how many threads. -/
  inside : ∀ i ≠ 0, ∀ f n, s.worker i = .inside f n → s.caller.within = some f ∧
    ∃ num, nums[f]? = some num ∧ n = min num (k + 1)
  /-- So does thread `0`. -/
  callerInside : ∀ j n f, s.caller = .run j n (.inside f) → f = j ∧
    ∃ num, nums[j]? = some num ∧ n = min num (k + 1)
  /-- No thread leaves before `queueTasks` has finished. -/
  leaves : ∀ i ≠ 0, s.worker i = .left → s.caller = .joined
  /-- Some thread can go on, until all have left. -/
  goesOn : (s.caller = .joined ∧ s.Free 0 ∧ ∀ i ≠ 0, s.worker i = .left) ∨
    ∃ s', Step joining nums s s'

theorem threadsFor_eq {size num : ℕ} (hsize : 1 ≤ size) (hnum : 1 ≤ num) :
    threadsFor size num = min num size := by
  rw [threadsFor]
  split_ifs with h
  · rfl
  · omega

/-- What a thread has executed so far. -/
theorem logAt_le {pc : WorkerPc} {a b d : ℕ} (h : ∀ f n, pc = .inside f n → 1 ≤ d) :
    (pc.logAt a b d).2 ≤ (pc.logAt a b d).1 ∧ (pc.logAt a b d).1 ≤ d := by
  rw [WorkerPc.logAt]
  split_ifs
  · exact ⟨le_rfl, Nat.zero_le d⟩
  · exact ⟨le_rfl, le_rfl⟩
  · cases pc with
    | inside f n => exact ⟨Nat.zero_le 1, h f n rfl⟩
    | second => exact ⟨le_rfl, le_rfl⟩
    | _ => exact ⟨le_rfl, Nat.zero_le d⟩

/-- Nothing is executed twice. -/
theorem Inv.atMostOnce (h : Inv joining nums s) (hnums : ∀ num ∈ nums, 1 ≤ num) {j num : ℕ}
    (hj : nums[j]? = some num) (id : ℕ) :
    s.ended j id ≤ s.began j id ∧ s.began j id ≤ if id < min num (k + 1) then 1 else 0 := by
  have hpos : 1 ≤ num := hnums num (List.mem_of_getElem? hj)
  have hzero : s.Untouched j → s.ended j id ≤ s.began j id ∧
      s.began j id ≤ if id < min num (k + 1) then 1 else 0 :=
    fun hun => by
      rw [(hun id).1, (hun id).2]
      exact ⟨le_rfl, Nat.zero_le _⟩
  rcases lt_trichotomy j (s.caller.returned nums) with hlt | heq | hgt
  · obtain ⟨hbegan, hended⟩ := h.past j hlt num hj id
    rw [hbegan, hended, threadsFor_eq (Nat.succ_pos k) hpos]
    exact ⟨le_rfl, le_rfl⟩
  · have hcur := h.current
    have hlt := (List.getElem?_eq_some_iff.mp hj).1
    cases hc : s.caller with
    | next i =>
      rw [hc] at hcur heq
      exact hzero (heq ▸ hcur)
    | alone i =>
      rw [hc] at hcur heq
      obtain rfl : j = i := heq
      rw [(hcur id).1, (hcur id).2]
      refine ⟨Nat.zero_le _, ?_⟩
      by_cases h0 : id = 0
      · rw [if_pos h0, if_pos (by omega)]
      · rw [if_neg h0]
        exact Nat.zero_le _
    | run i n stage =>
      rw [hc] at hcur heq
      obtain rfl : j = i := heq
      by_cases hbusy : stage.busy = true
      · obtain ⟨hlog, hworkers, hnone⟩ := (Current.busy hbusy).mp hcur
        obtain ⟨-, hthreads, num', hj', rfl⟩ := h.numThreads_eq hc hbusy
        obtain rfl : num = num' := Option.some.inj (hj.symm.trans hj')
        rcases Nat.lt_or_ge k id with hgt | hle
        · rw [(hnone id hgt).1, (hnone id hgt).2]
          exact ⟨le_rfl, Nat.zero_le _⟩
        · by_cases h0 : id = 0
          · subst h0
            obtain ⟨hbegan, hended⟩ := Prod.mk.inj hlog
            rw [if_pos (by omega), hbegan, hended]
            cases stage <;> first
              | exact ⟨le_rfl, Nat.zero_le 1⟩
              | exact ⟨Nat.zero_le 1, le_rfl⟩
              | exact ⟨le_rfl, le_rfl⟩
          · have hi : (⟨id, Nat.lt_succ_of_le hle⟩ : Fin (k + 1)) ≠ 0 :=
              fun hz => h0 (congrArg Fin.val hz)
            have hw := hworkers _ hi
            have hle := @logAt_le (s.worker ⟨id, Nat.lt_succ_of_le hle⟩)
              ((s.poolBarrier.thread ⟨id, Nat.lt_succ_of_le hle⟩).arrivals + s.lag)
                (s.poolBarrier.thread 0).arrivals
              (if id < min num (k + 1) then 1 else 0) fun f n' hpc => by
                have hok := h.workerOk _ hi
                rw [hpc] at hok
                rw [if_pos (hthreads ▸ hok.2.2.2)]
            obtain ⟨hbegan, hended⟩ := Prod.mk.inj
              (hw.trans (show s.workerLog _ _ = (_, _) from rfl))
            rw [hbegan, hended]
            exact hle
      · exact hzero ((iff_of_eq (if_neg hbusy)).mp hcur)
    | _ =>
      rw [hc] at heq
      exact absurd heq (Nat.ne_of_lt hlt)
  · exact hzero (h.future j hgt)

/-- Thread `0` can go on, unless it is done. -/
theorem Inv.caller_goesOn (h : Inv joining nums s) (hf : s.Free 0) (hover : s.caller ≠ .joined) :
    ∃ s', CallerStep joining nums s s' := by
  have hok := h.callerOk
  cases hc : s.caller with
  | next j =>
    cases hj : nums[j]? with
    | none => exact ⟨_, .noMore hf hc hj⟩
    | some num =>
      by_cases hn : 1 < min num (s.size joining)
      · exact ⟨_, .run hf hc hj hn⟩
      · exact ⟨_, .alone hf hc hj hn⟩
  | alone j => exact ⟨_, .returnAlone hf hc⟩
  | run j n stage =>
    cases stage with
    | setFunc => exact ⟨_, .setFunc hf hc⟩
    | setNumThreads => exact ⟨_, .setNumThreads hf hc⟩
    | setSync => exact ⟨_, .setSync hf hc⟩
    | first => exact ⟨_, .first hf hc⟩
    | call => exact ⟨_, .call hf hc (h.numThreads_eq hc rfl).1⟩
    | inside f => exact ⟨_, .returnCall hf hc⟩
    | second => exact ⟨_, .second hf hc⟩
    | ending => exact ⟨_, .returnRun hf hc⟩
  | queueTasks => exact ⟨_, .queueTasks hf hc⟩
  | setDone => exact ⟨_, .setDone hf hc⟩
  | last => exact ⟨_, .last hf hc⟩
  | joined => exact absurd hc hover

/-- Another thread can go on, unless it has left. -/
theorem Inv.worker_goesOn (h : Inv joining nums s) (hi : i ≠ 0) (hf : s.Free i)
    (hleft : s.worker i ≠ .left) : ∃ s', WorkerStep i s s' := by
  have hok := h.workerOk i hi
  cases hw : s.worker i with
  | loop => exact ⟨_, .loop hf hw⟩
  | checkDone =>
    cases hd : s.done with
    | false => exact ⟨_, .stay hf hw hd⟩
    | true => exact ⟨_, .leave hf hw hd⟩
  | checkNumThreads =>
    by_cases hn : i.val < s.numThreads
    · exact ⟨_, .wanted hf hw hn⟩
    · exact ⟨_, .notWanted hf hw hn⟩
  | call =>
    rw [hw] at hok
    obtain ⟨⟨j, n, stage, hc, hbusy⟩, -⟩ := hok
    exact ⟨_, .call hf hw (h.numThreads_eq hc hbusy).1⟩
  | inside f n => exact ⟨_, .returnCall hf hw⟩
  | second => exact ⟨_, .second hf hw⟩
  | left => exact absurd hw hleft

/-- **There is always a thread that can go on, until all have left.** -/
theorem Inv.goesOn (h : Inv joining nums s) :
    (s.caller = .joined ∧ s.Free 0 ∧ ∀ i ≠ 0, s.worker i = .left) ∨
    ∃ s', Step joining nums s s' := by
  by_contra hnot
  obtain ⟨hend, hstuck⟩ := not_or.mp hnot
  have hbarrier : ∀ i b, ¬ s.Free i → ¬ Meeting.Step calls i s.poolBarrier b := fun i b hf hb =>
    hstuck ⟨_, .inr (.inr (.step hf hb))⟩
  -- a thread that has come to the barrier is asleep, and is not going to be woken
  have hasleep : ∀ i, ¬ s.Free i → (s.poolBarrier.thread i).arrivals =
      s.poolBarrier.released + 1 := by
    intro i hf
    cases hp : (s.poolBarrier.thread i).place with
    | between => exact absurd hp hf
    | running => exact absurd hp (h.barrier.not_running calls_ne_single i)
    | asleep f =>
      rcases h.barrier.seen (.inl hp) with ⟨hc, -⟩ | ⟨-, rfl⟩
      · rw [Caller.arrivals_waiting hf, hc]
      · obtain ⟨j, hj⟩ := h.barrier.notified i hp
        exact absurd (.notify hj) (hbarrier j _ fun hf => by rw [Free, hj] at hf; cases hf)
    | awake f =>
      by_cases hflag : f = s.poolBarrier.barrier.flag
      · exact absurd (.stay hp hflag) (hbarrier i _ hf)
      · exact absurd (.leave hp hflag) (hbarrier i _ hf)
    | notifying => exact absurd (.notify hp) (hbarrier i _ hf)
  have hcaller : s.Free 0 → s.caller = .joined := fun hf => by
    by_contra hover
    obtain ⟨s', hs⟩ := h.caller_goesOn hf hover
    exact hstuck ⟨s', .inl hs⟩
  have hworker : ∀ i ≠ 0, s.Free i → s.worker i = .left := fun i hi hf => by
    by_contra hleft
    obtain ⟨s', hs⟩ := h.worker_goesOn hi hf hleft
    exact hstuck ⟨s', .inr (.inl ⟨i, hi, hs⟩)⟩
  by_cases hf : s.Free 0
  · have hover := hcaller hf
    refine hend ⟨hover, hf, fun i hi => hworker i hi ?_⟩
    by_contra hwait
    have := h.final hover i hi
    rw [hasleep i hwait, h.barrier.arrivals_eq hf] at this
    omega
  · have hall : ∀ i, ¬ s.Free i := by
      intro i hi
      by_cases h0 : i = 0
      · exact hf (h0 ▸ hi)
      · have hok := h.workerOk i h0
        have hpar := h.workerParity i h0
        have hpar₀ := h.callerParity
        rw [hworker i h0 hi] at hok hpar
        rw [show s.caller = .joined from hok, hasleep 0 hf] at hpar₀
        rw [h.barrier.arrivals_eq hi] at hpar
        simp only [WorkerPc.parity, CallerPc.parity] at hpar hpar₀
        omega
    have hcame : s.poolBarrier.came = Finset.univ := Finset.filter_true_of_mem fun i _ => by
      have := hasleep i (hall i)
      rw [Caller.arrivals_waiting (hall i)] at this
      exact ⟨Nat.succ.inj this, hall i⟩
    cases h.barrier.stage with
    | empty hc => exact Finset.notMem_empty 0 (hc ▸ hcame ▸ Finset.mem_univ 0)
    | waiting _ hc => exact hc hcame
    | running _ hk => exact calls_ne_single _ hk
    | ran _ hk => exact calls_ne_single _ hk

/-- **Thread pools hand work over.** -/
theorem threadPool_sound (hone : joining = true → nums.length ≤ 1) (hnums : ∀ num ∈ nums, 1 ≤ num)
    (h : Reachable joining nums s) : s.HandedOver joining nums := by
  have hinv := h.inv hone
  have hinside : ∀ j n stage, s.caller = .run j n stage → stage.busy = true →
      s.caller.within = some j := by
    intro j n stage hc _
    rw [hc]
    rfl
  refine ⟨fun j hj num hnum => ?_, fun j num hj id => hinv.atMostOnce hnums hj id,
    fun i hi f n hw => ?_, fun j n f hc => ?_, fun i hi hw => ?_, hinv.goesOn⟩
  · rw [← threadsFor_eq (Nat.succ_pos k) (hnums num (List.mem_of_getElem? hnum))]
    exact hinv.past j hj num hnum
  · have hok := hinv.workerOk i hi
    rw [hw] at hok
    obtain ⟨⟨j, n', stage, hc, hbusy⟩, hfunc, rfl, -⟩ := hok
    obtain ⟨hfunc', hthreads, hnum⟩ := hinv.numThreads_eq hc hbusy
    obtain rfl : f = j := Option.some.inj (hfunc.symm.trans hfunc')
    exact ⟨hinside f n' stage hc hbusy, hthreads ▸ hnum⟩
  · have hok := hinv.callerOk
    rw [hc] at hok
    exact ⟨hok.2.2.2.2.2 f rfl, hok.2.1⟩
  · have hok := hinv.workerOk i hi
    rw [hw] at hok
    exact hok

/-- A `ThreadJoiningThreadPool` with two threads, in which both execute the function. -/
theorem threadPool_sound_two :
    ∃ s : ThreadPool 1, s.HandedOver true [2] ∧ s.caller = .run 0 2 (.inside 0) ∧
    s.worker 1 = .inside 0 2 := by
  have h₀ : Reachable true [2] (new 1) := .refl
  have h₁ := h₀.tail (.inl (.inl (.run rfl rfl rfl (by decide))))
  have h₂ := h₁.tail (.inl (.inl (.setFunc rfl rfl)))
  have h₃ := h₂.tail (.inl (.inl (.setNumThreads rfl rfl)))
  have h₄ := h₃.tail (.inl (.inl (.setSync rfl rfl)))
  have h₅ := h₄.tail (.inl (.inl (.first rfl rfl)))
  have h₆ := h₅.tail (.inl (.inr (.inl ⟨1, by decide, .loop rfl rfl⟩)))
  have h₇ := h₆.tail (.inl (.inr
    (.inr (.step (show ¬ Free _ 1 from fun h => nomatch h) (.notify rfl)))))
  have h₈ := h₇.tail (.inl (.inr
    (.inr (.step (show ¬ Free _ 0 from fun h => nomatch h) (.leave rfl (by decide))))))
  have h₉ := h₈.tail (.inl (.inl (.call rfl rfl rfl)))
  have h₁₀ := h₉.tail (.inl (.inr (.inl ⟨1, by decide, .stay rfl rfl rfl⟩)))
  have h₁₁ := h₁₀.tail (.inl (.inr (.inl ⟨1, by decide, .wanted rfl rfl (by decide)⟩)))
  have h₁₂ := h₁₁.tail (.inl (.inr (.inl ⟨1, by decide, .call rfl rfl rfl⟩)))
  exact ⟨_, threadPool_sound (fun _ => le_rfl) (by decide) h₁₂, rfl, rfl⟩

end ThreadPool

end Ps4o
