import Ps4o.PoolCaller

/-!
# The threads that work is handed to

The steps of the other threads, and those at the barrier.

## What is proved

* `Inv.workerStep` — every step of a thread other than thread `0` keeps the invariant.
* `Inv.step` — so does every step.
-/

namespace Ps4o

namespace ThreadPool

variable {k : ℕ}
variable {joining : Bool} {nums : List ℕ} {s s' : ThreadPool k} {i : Fin (k + 1)}

/-! ### The other threads -/

theorem CallerOk.congr {pc : CallerPc} (h : CallerOk joining nums s pc) (hd : s'.done = s.done)
    (hfunc : s'.func = s.func) (hnum : s'.numThreads = s.numThreads) :
    CallerOk joining nums s' pc := by
  cases pc <;> simp only [CallerOk, hd, hfunc, hnum] at h ⊢ <;> exact h

theorem WorkerOk.congr {pc : WorkerPc} (h : WorkerOk s i pc) (hc : s'.caller = s.caller)
    (hfunc : s'.func = s.func) (hnum : s'.numThreads = s.numThreads) : WorkerOk s' i pc := by
  cases pc <;> simp only [WorkerOk, Busy, hc, hfunc, hnum] at h ⊢ <;> exact h

/-- A thread past the barrier goes on. -/
theorem Inv.proceed (h : Inv joining nums s) (hi : i ≠ 0) (hf : s.Free i)
    (hloop : s.worker i ≠ .loop) {pc : WorkerPc} (hb : s'.poolBarrier = s.poolBarrier)
    (hc : s'.caller = s.caller) (hfunc : s'.func = s.func) (hnum : s'.numThreads = s.numThreads)
    (hd : s'.done = s.done) (hw : s'.worker = Function.update s.worker i pc) (hpar : pc.parity = 1)
    (hok : WorkerOk s i pc) (hlog : ∀ j n stage, s.caller = .run j n stage → stage.busy = true →
      (s.began j i, s.ended j i) = (s.worker i).log (if i.val < n then 1 else 0) →
        (s'.began j i, s'.ended j i) = pc.log (if i.val < n then 1 else 0))
    (hframe : ∀ j x, (∀ n stage, s.caller = .run j n stage → stage.busy = false) ∨ x ≠ i.val →
      s'.began j x = s.began j x ∧ s'.ended j x = s.ended j x) : Inv joining nums s' := by
  have hfree : ∀ i, s'.Free i ↔ s.Free i := fun i => by rw [Free, Free, hb]
  have hlag : s'.lag = s.lag := by rw [lag, lag, hc]
  have hworker : ∀ j, s'.worker j = if j = i then pc else s.worker j := fun j => by
    rw [hw, Function.update_apply]
  have hout : ∀ j, s.caller.returned nums ≠ j → ∀ n stage, s.caller = .run j n stage →
      stage.busy = false := by
    intro j hj n stage hrun
    rw [hrun] at hj
    exact absurd rfl hj
  refine ⟨by rw [hb]; exact h.barrier, by rw [hb, hc]; exact h.callerParity, fun j hj => ?_,
    fun hn => hc ▸ h.callerWaits fun hf => hn ((hfree 0).mpr hf), fun j hj hn => ?_,
    hc ▸ h.callerOk.congr hd hfunc hnum,
    fun j hj => ?_, fun j hj num hnum' id => ?_, ?_, fun j hj id =>
    ?_, by rw [hb, hc]; exact h.final⟩
  · rw [hb, hworker]
    split_ifs with hji
    · rw [hji, hpar, h.workerParity i hi]
      cases hpc : s.worker i <;> first | exact absurd hpc hloop | rfl
    · exact h.workerParity j hj
  · have hji : j ≠ i := by
      rintro rfl
      exact hn ((hfree j).mpr hf)
    rw [hworker, if_neg hji]
    exact h.workerWaits j hj fun hf => hn ((hfree j).mpr hf)
  · rw [hworker]
    split_ifs with hji
    · rw [hji]
      exact hok.congr hc hfunc hnum
    · exact (h.workerOk j hj).congr hc hfunc hnum
  · rw [hc] at hj
    obtain ⟨hbegan, hended⟩ := hframe j id (.inl (hout j (Nat.ne_of_gt hj)))
    rw [hbegan, hended]
    exact h.past j hj num hnum' id
  · rw [hc]
    have hcur := h.current
    have hsame : ∀ j, (∀ n stage, s.caller = .run j n stage → stage.busy = false) → ∀ id,
        s'.began j id = s.began j id ∧ s'.ended j id = s.ended j id :=
        fun j hj id => hframe j id (.inl hj)
    cases hpc : s.caller with
    | run j n stage =>
      rw [hpc] at hcur
      by_cases hbusy : stage.busy = true
      · obtain ⟨hzero, hworkers, hnone⟩ := (Current.busy hbusy).mp hcur
        refine (Current.busy hbusy).mpr ⟨?_, fun l hl => ?_, fun id hid => ?_⟩
        · obtain ⟨hbegan, hended⟩ := hframe j 0 (.inr fun h0 => hi (Fin.ext h0.symm))
          rw [hbegan, hended]
          exact hzero
        · by_cases hli : l = i
          · subst hli
            rcases h.busy_or_over hi hf hloop with ⟨-, heq⟩ | hover
            · have hw := hworkers l hl
              rw [workerLog, WorkerPc.logAt_eq heq.symm] at hw
              rw [workerLog, hb, hlag, WorkerPc.logAt_eq heq.symm, hworker, if_pos rfl]
              exact hlog j n stage hpc hbusy hw
            · exact absurd (hpc.symm.trans hover) (by simp)
          · obtain ⟨hbegan, hended⟩ := hframe j l (.inr fun he => hli (Fin.ext he))
            rw [hbegan, hended, workerLog_congr hb hlag ((hworker l).trans (if_neg hli))]
            exact hworkers l hl
        · obtain ⟨hbegan, hended⟩ := hframe j id (.inr (by omega))
          rw [hbegan, hended]
          exact hnone id hid
      · have hidle : stage.busy = false := Bool.eq_false_iff.mpr hbusy
        have hun : s.Untouched j := (iff_of_eq (if_neg hbusy)).mp hcur
        refine (iff_of_eq (if_neg hbusy)).mpr fun id => ?_
        obtain ⟨hbegan, hended⟩ := hsame j (fun n' stage' hrun => by
          obtain ⟨-, -, rfl⟩ := CallerPc.run.inj (hpc.symm.trans hrun)
          exact hidle) id
        rw [hbegan, hended]
        exact hun id
    | alone j =>
      rw [hpc] at hcur
      intro id
      obtain ⟨hbegan, hended⟩ := hsame j
        (fun n stage hrun => absurd (hpc.symm.trans hrun) (by simp)) id
      rw [hbegan, hended]
      exact hcur id
    | _ =>
      rw [hpc] at hcur
      intro id
      obtain ⟨hbegan, hended⟩ := hsame _
        (fun n stage hrun => absurd (hpc.symm.trans hrun) (by simp)) id
      rw [hbegan, hended]
      exact hcur id
  · rw [hc] at hj
    obtain ⟨hbegan, hended⟩ := hframe j id (.inl (hout j (Nat.ne_of_lt hj)))
    rw [hbegan, hended]
    exact h.future j hj id

/-- A thread comes to the barrier. -/
theorem Inv.workerArrive (h : Inv joining nums s) (hi : i ≠ 0) (hf : s.Free i) {pc : WorkerPc}
    (hpar : pc.parity = ((s.worker i).parity + 1) % 2) (hpc : pc = .loop ∨ pc = .checkDone)
    (hfinal : s.caller = .joined → s.worker i = .loop)
    (hlog : ∀ d, s.Busy → pc.logAt ((s.poolBarrier.thread i).arrivals + 1 + s.lag)
      (s.poolBarrier.thread 0).arrivals d =
      (s.worker i).logAt ((s.poolBarrier.thread i).arrivals + s.lag)
      (s.poolBarrier.thread 0).arrivals d) : Inv joining nums ((s.arrive i).goOn i pc) := by
  have harr := Meeting.arrivals_arrive hf
  have hthread : ∀ j ≠ i, (s.poolBarrier.after i s.poolBarrier.barrier.barrier).thread j =
      s.poolBarrier.thread j :=
    fun j hj => (Meeting.thread_arrive j).trans (if_neg hj)
  have hworker : ∀ j, ((s.arrive i).goOn i pc).worker j = if j = i then pc else s.worker j :=
    fun j => Function.update_apply _ _ _ _
  have hbar : ((s.arrive i).goOn i pc).poolBarrier =
    s.poolBarrier.after i s.poolBarrier.barrier.barrier := rfl
  have hfree : ∀ j ≠ i, s.Free j → ((s.arrive i).goOn i pc).Free j := fun j hj hf => by
    rw [Free, hbar, hthread j hj]
    exact hf
  have hok : ∀ j ≠ 0, WorkerOk s j (((s.arrive i).goOn i pc).worker j) := fun j hj => by
    rw [hworker]
    split_ifs
    · rcases hpc with rfl | rfl <;> trivial
    · exact h.workerOk j hj
  refine ⟨h.barrier.barrier hf rfl, ?_, fun j hj => ?_, fun hn => h.callerWaits fun hf =>
    hn (hfree 0 (Ne.symm hi) hf),
    fun j hj hn => ?_, h.callerOk.congr rfl rfl rfl, fun j hj => (hok j hj).congr rfl rfl rfl,
      h.past, ?_, h.future,
    fun hover j hj => ?_⟩
  · refine (congrArg (· % 2) (harr 0)).trans ?_
    rw [if_neg (Ne.symm hi)]
    exact h.callerParity
  · refine (congrArg (· % 2) (harr j)).trans ?_
    rw [hworker]
    split_ifs with hji
    · rw [hpar, hji, ← h.workerParity i hi]
      omega
    · exact h.workerParity j hj
  · rw [hworker]
    split_ifs with hji
    · exact hpc
    · exact h.workerWaits j hj fun hf => hn (hfree j hji hf)
  · have hcur := h.current
    have hsame : ((s.arrive i).goOn i pc).caller = s.caller := rfl
    rw [hsame]
    cases hcaller : s.caller with
    | run j n stage =>
      rw [hcaller] at hcur
      by_cases hbusy : stage.busy = true
      · obtain ⟨hzero, hworkers, hnone⟩ := (Current.busy hbusy).mp hcur
        refine (Current.busy hbusy).mpr ⟨hzero, fun l hl => (hworkers l hl).trans ?_, hnone⟩
        have hlag : ((s.arrive i).goOn i pc).lag = s.lag := rfl
        rw [workerLog, workerLog, hlag, hworker, hbar, harr, harr, if_neg (Ne.symm hi)]
        by_cases hli : l = i
        · rw [if_pos hli, if_pos hli, hli]
          exact (hlog _ ⟨j, n, stage, hcaller, hbusy⟩).symm
        · rw [if_neg hli, if_neg hli]
          rfl
      · exact (iff_of_eq (if_neg hbusy)).mpr ((iff_of_eq (if_neg hbusy)).mp hcur)
    | _ =>
      rw [hcaller] at hcur
      exact hcur
  · have hle := h.final hover j hj
    rw [hbar, harr, harr, if_neg (Ne.symm hi)]
    split_ifs with hji
    · have hpar₀ := h.callerParity
      have hpar₁ := h.workerParity i hi
      have hover' : s.caller = .joined := hover
      rw [hover', show CallerPc.joined.parity = 1 from rfl] at hpar₀
      rw [hfinal hover', show WorkerPc.loop.parity = 0 from rfl] at hpar₁
      rw [hji] at hle ⊢
      omega
    · exact hle

/-- What thread `0` has written before it waits for the others. -/
theorem Inv.numThreads_eq (h : Inv joining nums s) {j n : ℕ} {stage : RunStage}
    (hc : s.caller = .run j n stage) (hbusy : stage.busy = true) :
    s.func = some j ∧ s.numThreads = n ∧ ∃ num, nums[j]? = some num ∧ n = min num (k + 1) := by
  have hok := h.callerOk
  rw [hc] at hok
  obtain ⟨-, hnum, -, hfunc, hthreads, -⟩ := hok
  exact ⟨hfunc (by rintro rfl; cases hbusy), hthreads (by rintro rfl; cases hbusy)
    (by rintro rfl; cases hbusy), hnum⟩

theorem Inv.exists_run (h : Inv joining nums s) (hb : s.Busy) :
    ∃ j stage, s.caller = .run j s.numThreads stage ∧ stage.busy = true ∧ s.func = some j := by
  obtain ⟨j, n, stage, hc, hbusy⟩ := hb
  obtain ⟨hfunc, rfl, -⟩ := h.numThreads_eq hc hbusy
  exact ⟨j, stage, hc, hbusy, hfunc⟩

/-- A thread that executes the function of call `f` does not touch the other counters. -/
theorem elsewhere {f n id : ℕ} {stage : RunStage} (hc : s.caller = .run f n stage)
    (hbusy : stage.busy = true) {j x : ℕ}
    (hne : (∀ n stage, s.caller = .run j n stage → stage.busy = false) ∨ x ≠ id) :
    j ≠ f ∨ x ≠ id := by
  refine hne.imp_left fun hidle => ?_
  rintro rfl
  exact absurd (hbusy.symm.trans (hidle n stage hc)) Bool.noConfusion

/-- **The other threads keep the invariant.** -/
theorem Inv.workerStep (h : Inv joining nums s) (hi : i ≠ 0) (hs : WorkerStep i s s') :
    Inv joining nums s' := by
  have hok := h.workerOk i hi
  cases hs with
  | loop hf hpc =>
    refine h.workerArrive hi hf (by rw [hpc]; rfl) (.inr rfl) (fun _ => hpc) fun d hbusy => ?_
    obtain ⟨j, n, stage, hc, hstage⟩ := hbusy
    have hpar := h.workerParity i hi
    have hpar₀ := h.callerParity
    rw [hpc] at hpar ⊢
    rw [hc] at hpar₀
    have hmem := h.arrivals_of_free hf 0
    have hlag : s.lag = (CallerPc.run j n stage).parity + 1 - 2 *
        (CallerPc.run j n stage).parity := by
      rw [lag, hc]
      cases stage <;> first | rfl | exact absurd hstage Bool.noConfusion
    have hcase : (CallerPc.run j n stage).parity = 0 ∨ (CallerPc.run j n stage).parity = 1 := by
      cases stage <;> first | exact .inl rfl | exact .inr rfl
    rw [show WorkerPc.loop.parity = 0 from rfl] at hpar
    rcases hcase with hzero | hone
    · rw [WorkerPc.logAt_gt (by omega), WorkerPc.logAt_gt (by omega)]
    · rw [WorkerPc.logAt_eq (by omega), WorkerPc.logAt_lt (by omega)]
      rfl
  | leave hf hpc hd =>
    have hover : s.caller = .joined := by
      refine (h.busy_or_over hi hf (by rw [hpc]; simp)).resolve_left fun hb => ?_
      obtain ⟨⟨j, n, stage, hc, -⟩, -⟩ := hb
      have hok := h.callerOk
      rw [hc] at hok
      exact absurd (hok.1.symm.trans hd) Bool.noConfusion
    refine h.proceed hi hf (by rw [hpc]; simp) rfl rfl rfl rfl rfl rfl rfl hover
      (fun j n stage hc => ?_) fun _ _ _ => ⟨rfl, rfl⟩
    exact absurd (hc.symm.trans hover) (by simp)
  | stay hf hpc hd =>
    have hbusy : s.Busy := by
      refine ((h.busy_or_over hi hf (by rw [hpc]; simp)).resolve_right fun hover => ?_).1
      have hok := h.callerOk
      rw [hover] at hok
      exact absurd (hd.symm.trans hok) Bool.noConfusion
    refine h.proceed hi hf (by rw [hpc]; simp) rfl rfl rfl rfl rfl rfl rfl hbusy
      (fun j n stage _ _ hlog => ?_) fun _ _ _ => ⟨rfl, rfl⟩
    rw [hpc] at hlog
    exact hlog
  | wanted hf hpc hn =>
    rw [hpc] at hok
    refine h.proceed hi hf (by rw [hpc]; simp) rfl rfl rfl rfl rfl rfl rfl ⟨hok, hn⟩
      (fun j n stage _ _ hlog => ?_) fun _ _ _ => ⟨rfl, rfl⟩
    rw [hpc] at hlog
    exact hlog
  | notWanted hf hpc hn =>
    rw [hpc] at hok
    refine h.proceed hi hf (by rw [hpc]; simp) rfl rfl rfl rfl rfl rfl rfl hok
      (fun j n stage hc hbusy hlog => ?_) fun _ _ _ => ⟨rfl, rfl⟩
    rw [hpc] at hlog
    obtain ⟨j₀, stage₀, hc₀, -⟩ := h.exists_run hok
    obtain ⟨-, rfl, -⟩ := CallerPc.run.inj (hc.symm.trans hc₀)
    rw [if_neg hn] at hlog ⊢
    exact hlog
  | @call f hf hpc hfunc =>
    rw [hpc] at hok
    obtain ⟨hbusy, hlt⟩ := hok
    obtain ⟨j₀, stage₀, hc₀, hbusy₀, hfunc₀⟩ := h.exists_run hbusy
    obtain rfl : f = j₀ := Option.some.inj (hfunc.symm.trans hfunc₀)
    refine h.proceed hi hf (by rw [hpc]; simp) rfl rfl rfl rfl rfl rfl rfl
      ⟨hbusy, hfunc, rfl, hlt⟩
      (fun j n stage hc _ hlog => ?_) fun j x hne => ⟨begin_of_ne (elsewhere hc₀ hbusy₀ hne), rfl⟩
    rw [hpc] at hlog
    obtain ⟨rfl, rfl, -⟩ := CallerPc.run.inj (hc₀.symm.trans hc)
    obtain ⟨hbegan, hended⟩ := Prod.mk.inj hlog
    exact Prod.ext ((begin_self f i).trans (congrArg (· + 1) hbegan)) hended
  | @returnCall f n hf hpc =>
    rw [hpc] at hok
    obtain ⟨hbusy, hfunc, rfl, hlt⟩ := hok
    obtain ⟨j₀, stage₀, hc₀, hbusy₀, hfunc₀⟩ := h.exists_run hbusy
    obtain rfl : f = j₀ := Option.some.inj (hfunc.symm.trans hfunc₀)
    refine h.proceed hi hf (by rw [hpc]; simp) rfl rfl rfl rfl rfl rfl rfl hbusy
      (fun j n stage hc _ hlog => ?_) fun j x hne => ⟨rfl, finish_of_ne (elsewhere hc₀ hbusy₀ hne)⟩
    rw [hpc] at hlog
    obtain ⟨rfl, rfl, -⟩ := CallerPc.run.inj (hc₀.symm.trans hc)
    obtain ⟨hbegan, hended⟩ := Prod.mk.inj hlog
    rw [if_pos hlt]
    exact Prod.ext hbegan ((finish_self f i).trans (congrArg (· + 1) hended))
  | second hf hpc =>
    rw [hpc] at hok
    obtain ⟨j₀, n₀, stage₀, hc₀, -⟩ := hok
    refine h.workerArrive hi hf (by rw [hpc]; exact (Nat.mod_self 2).symm) (.inl rfl)
      (fun hover => absurd (hc₀.symm.trans hover) (by simp)) fun d hbusy => ?_
    rcases h.busy_or_over hi hf (by rw [hpc]; simp) with ⟨-, heq⟩ | hover
    · rw [hpc, WorkerPc.logAt_gt (by omega), WorkerPc.logAt_eq heq.symm]
      rfl
    · obtain ⟨j, n, stage, hc, -⟩ := hbusy
      exact absurd (hc.symm.trans hover) (by simp)

/-! ### The barrier -/

theorem calls_ne_single (j : ℕ) : calls j ≠ some .single := fun h => nomatch h

/-- Steps at the barrier change nothing else. -/
theorem Inv.meet (h : Inv joining nums s) {b : Meeting (Fin (k + 1))} (hb : b.Inv calls)
    (harr : ∀ i, (b.thread i).arrivals = (s.poolBarrier.thread i).arrivals ∧
      (s.Free i → (b.thread i).place = .between)) : Inv joining nums
        { s with poolBarrier := b } := by
  refine ⟨hb, (congrArg (· % 2) (harr 0).1).trans h.callerParity,
    fun i hi => (congrArg (· % 2) (harr i).1).trans (h.workerParity i hi),
    fun hn => h.callerWaits fun hf => hn ((harr 0).2 hf), fun i hi hn => h.workerWaits i hi
    fun hf => hn ((harr i).2 hf),
    h.callerOk.congr rfl rfl rfl, fun i hi => (h.workerOk i hi).congr rfl rfl rfl,
    h.past, ?_, h.future,
    fun hover i hi => (harr i).1.trans_le ((h.final hover i hi).trans (harr 0).1.ge)⟩
  have hcur := h.current
  have hsame : { s with poolBarrier := b }.caller = s.caller := rfl
  rw [hsame]
  cases hcaller : s.caller with
  | run j n stage =>
    rw [hcaller] at hcur
    by_cases hbusy : stage.busy = true
    · obtain ⟨hzero, hworkers, hnone⟩ := (Current.busy hbusy).mp hcur
      refine (Current.busy hbusy).mpr ⟨hzero, fun l hl => (hworkers l hl).trans ?_, hnone⟩
      rw [workerLog, ← (harr l).1, ← (harr 0).1, lag, hcaller]
      rfl
    · exact (iff_of_eq (if_neg hbusy)).mpr ((iff_of_eq (if_neg hbusy)).mp hcur)
  | _ =>
    rw [hcaller] at hcur
    exact hcur

/-- **Every step keeps the invariant.** -/
theorem Inv.step (h : Inv joining nums s) (hone : joining = true → nums.length ≤ 1)
    (hs : Step joining nums s s') : Inv joining nums s' := by
  rcases hs with hs | ⟨i, hi, hs⟩ | hs
  · exact h.callerStep hone hs
  · exact h.workerStep hi hs
  · cases hs with
    | step hf hb =>
      exact h.meet (h.barrier.step hb) (hb.arrivals hf (h.barrier.not_running calls_ne_single))

theorem Inv.spurious (h : Inv joining nums s) (hs : Spurious s s') : Inv joining nums s' := by
  cases hs with
  | wake hb => exact h.meet (h.barrier.spurious hb) hb.arrivals

theorem Reachable.inv (hone : joining = true → nums.length ≤ 1) (h : Reachable joining nums s) :
    Inv joining nums s := by
  induction h with
  | refl => exact new_inv
  | tail _ hs ih =>
    rcases hs with hs | hs
    · exact ih.step hone hs
    · exact ih.spurious hs

end ThreadPool

end Ps4o
