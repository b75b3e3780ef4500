import Ps4o.ParallelPartition
import Ps4o.Scheduler
import Ps4o.Tasks

/-!
# Small tasks

What a thread does with a task that it has got from the scheduler: it partitions the range, and puts
the buckets that are left for a further level into its own queue (`sequential` on a task in
`sequential.hpp`, `processSmallTasks` in `parallel.hpp`).

## What is proved

* `sat_processTask` — a task is executed within its part of the input array, of the temporary array
  and of the oracle; what is emplaced are parts of the task.
* `smallTasks_independent` — **tasks on different ranges do not interfere**: each of them changes
  only its own part of the arrays and depends on nothing else, so they can be executed in either
  order. This is so for objects with lifetimes and for objects that are only bits.
-/

namespace Ps4o

open Ps4o.Program Ps4o.Storage Ps4o.Order

variable {A α : Type} (comp : α → α → Bool)

/-! ### The code -/

/-- `sequential` on a task of the array at `p`: partitions it, and emplaces its buckets. -/
def sequentialTask (cfg : Config)
    (sort : Ptr A → ℕ → Ptr A → ℕ → Bool → Sorter α → Act A α (Sorter α)) (p tmp : Ptr A)
    (oracle : ℕ) (task : Task) (queue : PrivateQueue Task) (s : Sorter α) :
    Act A α (Sorter α × PrivateQueue Task) := do
  let n := task.stop - task.begin
  let lastLevel : Bool := decide (n ≤ cfg.kSingleLevelThreshold)
  -- Do the partitioning
  let (equalBuckets, bucketStartSave, s) ← partition comp cfg sort
    (p + task.begin) n (tmp + task.begin) (oracle + task.begin) lastLevel task.inInputArray s
  pure (s, (emplaced cfg task bucketStartSave s.numBuckets equalBuckets).foldl
    PrivateQueue.emplace queue)

/-- What `processSmallTasks` does with a task. -/
def processTask (cfg : Config) (sort : Ptr A → ℕ → Ptr A → ℕ → Bool → Sorter α → Act A α (Sorter α))
    (begin tmp : Ptr A) (oracle : ℕ) (task : Task) (queue : PrivateQueue Task) (s : Sorter α) :
    Act A α (Sorter α × PrivateQueue Task) :=
  if task.inInputArray then sequentialTask comp cfg sort begin tmp oracle task queue s
  else sequentialTask comp cfg sort tmp begin oracle task queue s

/-! ### What is emplaced -/

/-- A part of a task. -/
structure Task.PartOf (t task : Task) : Prop where
  begin_le : task.begin ≤ t.begin
  le : t.begin ≤ t.stop
  stop_le : t.stop ≤ task.stop

/-- Parts of the task have been put into the queue. -/
def Task.Emplaces (task : Task) (queue queue' : PrivateQueue Task) : Prop :=
  ∃ new : List Task, queue'.jobs = queue.jobs ++ new ∧ ∀ t ∈ new, t.PartOf task

theorem jobs_foldl_emplace {Job : Type} (l : List Job) (q : PrivateQueue Job) :
    (l.foldl PrivateQueue.emplace q).jobs = q.jobs ++ l := by
  induction l generalizing q with
  | nil => simp
  | cons j l ih =>
    rw [List.foldl_cons, ih, PrivateQueue.jobs_emplace, List.append_assoc, List.singleton_append]

/-- Buckets are parts of the task. -/
theorem emplaced_partOf {cfg : Config} {task : Task} {bss : ℕ → ℕ} {nb : ℕ} {eq : Bool}
    (h : Boundaries eq nb (task.stop - task.begin) bss) (hlt : task.begin < task.stop) :
    ∀ t ∈ emplaced cfg task bss nb eq, t.PartOf task := by
  intro t ht
  rw [emplaced] at ht
  split_ifs at ht
  · cases ht
  obtain ⟨c, hc, rfl⟩ := List.mem_map.mp ht
  obtain ⟨hcnb, -, -⟩ := (mem_pendingBuckets h).mp hc
  have hle := h.end_le hcnb
  have hstep := h.step c hcnb
  exact ⟨Nat.le_add_right _ _, by dsimp only; omega, by dsimp only; omega⟩

/-! ### Where a task is executed -/

section
variable {comp} [DecidableEq A] {lax : Bool} {cfg : Config} {begin tmp p : Ptr A} {oracle fuel : ℕ}
  {task : Task} {queue : PrivateQueue Task} {s : Sorter α}

/-- The parts of both arrays and of the oracle that belong to a task. -/
def Task.region (begin tmp : Ptr A) (oracle : ℕ) (task : Task) : Set (Loc A) :=
  workspace (begin + task.begin) (tmp + task.begin) (oracle + task.begin) (task.stop - task.begin)

/-- The elements of a task are objects in one array, and the other array is raw there. -/
def Task.Ready (begin tmp : Ptr A) (task : Task) (m : Mem A (Slot α)) : Prop :=
  (∃ xs : List α, xs.length = task.stop - task.begin ∧
    Has m ((if task.inInputArray then begin else tmp) + task.begin) (xs.map .full)) ∧
  Raw m ((if task.inInputArray then tmp else begin) + task.begin) (task.stop - task.begin)

omit [DecidableEq A] in
theorem workspace_swap (p tmp : Ptr A) (oracle n : ℕ) :
    workspace p tmp oracle n = workspace tmp p oracle n := by
  rw [workspace, workspace, Set.union_comm (seg p n)]

omit [DecidableEq A] in
/-- Tasks on different ranges have no location in common. -/
theorem region_disjoint (harr : begin.arr ≠ tmp.arr) {t₁ t₂ : Task}
    (h : t₁.stop ≤ t₂.begin ∨ t₂.stop ≤ t₁.begin) :
    ∀ l ∈ t₁.region begin tmp oracle, l ∉ t₂.region begin tmp oracle := by
  intro l hl hl'
  cases l with
  | elem q =>
    simp only [Task.region, elem_mem_workspace, elem_mem_seg, Ptr.add_arr, Ptr.add_off] at hl hl'
    rcases hl with hl | hl <;> rcases hl' with hl' | hl'
    · omega
    · exact harr (hl.1.symm.trans hl'.1)
    · exact harr (hl'.1.symm.trans hl.1)
    · omega
  | byte b =>
    simp only [Task.region, byte_mem_workspace] at hl hl'
    omega

/-- Partitioning a task and emplacing its buckets. -/
theorem sat_sequentialTask {sort : Ptr A → ℕ → Ptr A → ℕ → Bool → Sorter α → Act A α (Sorter α)}
    {xs : List α} {m : Mem A (Slot α)} (hc : StrictWeak comp)
    (hn : xs.length = task.stop - task.begin) (hpos : task.begin < task.stop)
    (hfits : cfg.Fits (task.stop - task.begin))
    (hsort : Sorts comp cfg lax (task.stop - task.begin) sort) (harr : p.arr ≠ tmp.arr)
    (hs : s.data.classifier.Empty) (hm : Has m (p + task.begin) (xs.map .full))
    (htmp : Raw m (tmp + task.begin) (task.stop - task.begin)) :
    Sat (slots A α lax) (task.region p tmp oracle)
      (sequentialTask comp cfg sort p tmp oracle task queue s) m
      fun r _ => r.1.data.classifier.Empty ∧ task.Emplaces queue r.2 := by
  rw [sequentialTask, sat_bind]
  have harr' : (p + task.begin).arr ≠ (tmp + task.begin).arr := harr
  refine (sat_partition hc hn hfits (hsort.mono hfits.sample_lt) harr' hs hm htmp).imp ?_
  rintro ⟨eq, bss, s'⟩ m' ⟨hs', sample, rest, hsample, hperm, heq, hnb, hbss, -⟩
  have hlen : (sample ++ rest).length = task.stop - task.begin := hperm.length_eq.trans hn
  simp only at hs' heq hnb hbss ⊢
  rw [hnb] at hbss
  have hbounds := (cfg.layout hc hsample harr' rest).boundaries
    (show 0 < (sample ++ rest).length by omega) hbss
  rw [← heq, ← hnb, show (cfg.layout hc hsample _ rest).n = task.stop - task.begin from hlen]
    at hbounds
  exact ⟨hs', _, jobs_foldl_emplace _ _, emplaced_partOf hbounds hpos⟩

variable (hc : StrictWeak comp) (hcfg : cfg.Sound) (harr : begin.arr ≠ tmp.arr)
  (hlarge : 2 * cfg.kBaseCaseSize < task.stop - task.begin) (hfuel : task.stop - task.begin ≤ fuel)
  (hs : s.data.classifier.Empty)
include hc hcfg harr hlarge hfuel hs

/-- **A task is executed within its part of the arrays**, whichever array its elements are in. -/
theorem sat_processTask {m : Mem A (Slot α)} (hm : task.Ready begin tmp m) :
    Sat (slots A α lax) (task.region begin tmp oracle)
      (processTask comp cfg (sequential comp cfg fuel) begin tmp oracle task queue s) m fun r _ =>
        r.1.data.classifier.Empty ∧ task.Emplaces queue r.2 := by
  have hfits := hcfg.fits _ hlarge
  have hsort : Sorts comp cfg lax (task.stop - task.begin) (sequential (A := A) comp cfg fuel) :=
    (sat_sequential hc hcfg fuel).mono hfuel
  obtain ⟨⟨xs, hn, hm⟩, hraw⟩ := hm
  rw [processTask]
  split_ifs with hin
  · rw [if_pos hin] at hm hraw
    exact sat_sequentialTask hc hn (by omega) hfits hsort harr hs hm hraw
  · rw [if_neg hin] at hm hraw
    rw [Task.region, workspace_swap]
    exact sat_sequentialTask hc hn (by omega) hfits hsort harr.symm hs hm hraw

/-- The same on bits, whatever is in memory. -/
theorem sat_processTask_bits (m : Mem A α) :
    Sat (copies A α) (task.region begin tmp oracle)
      (processTask comp cfg (sequential comp cfg fuel) begin tmp oracle task queue s) m fun r _ =>
        r.1.data.classifier.Empty ∧ task.Emplaces queue r.2 := by
  set p := (if task.inInputArray then begin else tmp) + task.begin with hp
  set n := task.stop - task.begin with hn
  obtain ⟨xs, hlen, hxs⟩ : ∃ xs : List α, xs.length = n ∧ Has m p xs := by
    refine ⟨(List.range n).map fun i => m.slot (p + i), by rw [List.length_map, List.length_range],
      fun i v hv => ?_⟩
    obtain ⟨hi, rfl⟩ := List.getElem?_eq_some_iff.mp hv
    rw [List.getElem_map, List.getElem_range]
  have hother : ((if task.inInputArray then tmp else begin) + task.begin).arr ≠ p.arr := by
    rw [hp]
    split_ifs
    · exact harr.symm
    · exact harr
  have hsat : Sat (slots A α false) (task.region begin tmp oracle)
      (processTask comp cfg (sequential comp cfg fuel) begin tmp oracle task queue s)
          (m.within p n) _ :=
    sat_processTask hc hcfg harr hlarge hfuel hs
    ⟨⟨xs, hlen, has_within hxs hlen.le⟩, raw_within hother n⟩
  refine (sat_copies hsat rep_within).imp ?_
  rintro r m' ⟨_, hr, -⟩
  exact hr

end

/-! ### Two tasks -/

section
variable {comp} [DecidableEq A] {cfg : Config} {begin tmp : Ptr A} {oracle : ℕ}

/-- Two programs that execute tasks, each with a queue of its own: each changes only its part of the
arrays and depends on nothing else, they can be exchanged, and each emplaces parts of its task. -/
structure Independent {σ : Type} (S : Semantics (Cmd A α) Cmd.Ans σ (Loc A)) (begin tmp : Ptr A)
    (oracle : ℕ) (t₁ t₂ : Task) (q₁ q₂ : PrivateQueue Task)
    (p₁ p₂ : Act A α (Sorter α × PrivateQueue Task)) (m : σ) : Prop where
  confined₁ : ConfinedTo S (t₁.region begin tmp oracle) p₁ m
  confined₂ : ConfinedTo S (t₂.region begin tmp oracle) p₂ m
  exchange : Exchange S p₁ p₂ m
  emplaces₁ : ∀ c s q c' m', run S p₁ c m = .ok ((s, q), c', m') → t₁.Emplaces q₁ q
  emplaces₂ : ∀ c s q c' m', run S p₂ c m = .ok ((s, q), c', m') → t₂.Emplaces q₂ q

omit [DecidableEq A] in
theorem Independent.of_sat {σ : Type} {S : Semantics (Cmd A α) Cmd.Ans σ (Loc A)} {t₁ t₂ : Task}
    {q₁ q₂ : PrivateQueue Task} {p₁ p₂ : Act A α (Sorter α × PrivateQueue Task)} {m : σ}
    (E₁ E₂ : Sorter α → Prop) (harr : begin.arr ≠ tmp.arr)
    (hdisj : t₁.stop ≤ t₂.begin ∨ t₂.stop ≤ t₁.begin)
    (hext : ∀ m m' : σ, (∀ l, S.Agree m m' l) → m = m')
    (h₁ : Sat S (t₁.region begin tmp oracle) p₁ m fun r _ => E₁ r.1 ∧ t₁.Emplaces q₁ r.2)
    (h₂ : Sat S (t₂.region begin tmp oracle) p₂ m fun r _ => E₂ r.1 ∧ t₂.Emplaces q₂ r.2) :
    Independent S begin tmp oracle t₁ t₂ q₁ q₂ p₁ p₂ m := by
  have hemplaces : ∀ {t : Task} {q : PrivateQueue Task} {p : Act A α (Sorter α × PrivateQueue Task)}
      {E : Sorter α → Prop},
      Sat S (t.region begin tmp oracle) p m (fun r _ => E r.1 ∧ t.Emplaces q r.2) →
      ∀ c s q' c' m', run S p c m = .ok ((s, q'), c', m') → t.Emplaces q q' := by
    intro t q p E h c s q' c' m' hrun
    obtain ⟨r, _, _, hrun', -, hr⟩ := h.run c
    obtain ⟨rfl, -⟩ := Prod.mk.inj (Except.ok.inj (hrun'.symm.trans hrun))
    exact hr
  exact ⟨h₁.confinedTo, h₂.confinedTo, h₁.confinedTo.exchange h₂.confinedTo
    (region_disjoint harr hdisj) hext, hemplaces h₁, hemplaces h₂⟩

omit [DecidableEq A] in
/-- Memories that hold the same everywhere are the same. -/
theorem mem_ext_agree {V : Type} (m m' : Mem A V) (h : ∀ l, m.Agree m' l) : m = m' := by
  obtain ⟨slot, byte⟩ := m
  obtain ⟨slot', byte'⟩ := m'
  congr 1
  · exact funext fun q => h (.elem q)
  · exact funext fun i => h (.byte i)

/-- **Tasks on different ranges do not interfere**: for objects in the array that each task names,
and for bits. -/
theorem smallTasks_independent (hc : StrictWeak comp) (hcfg : cfg.Sound)
    (harr : begin.arr ≠ tmp.arr) {t₁ t₂ : Task} (hdisj : t₁.stop ≤ t₂.begin ∨ t₂.stop ≤ t₁.begin)
    (hlarge₁ : 2 * cfg.kBaseCaseSize < t₁.stop - t₁.begin)
    (hlarge₂ : 2 * cfg.kBaseCaseSize < t₂.stop - t₂.begin) {fuel : ℕ}
    (hfuel₁ : t₁.stop - t₁.begin ≤ fuel) (hfuel₂ : t₂.stop - t₂.begin ≤ fuel)
    (q₁ q₂ : PrivateQueue Task) {s₁ s₂ : Sorter α} (hs₁ : s₁.data.classifier.Empty)
    (hs₂ : s₂.data.classifier.Empty) :
    let execute := processTask comp cfg (sequential comp cfg fuel) begin tmp oracle
    (∀ m : Mem A (Slot α), t₁.Ready begin tmp m → t₂.Ready begin tmp m →
      Independent (slots A α false) begin tmp oracle t₁ t₂ q₁ q₂ (execute t₁ q₁ s₁)
      (execute t₂ q₂ s₂) m) ∧
    ∀ m : Mem A α,
      Independent (copies A α) begin tmp oracle t₁ t₂ q₁ q₂ (execute t₁ q₁ s₁)
      (execute t₂ q₂ s₂) m := by
  let E : Sorter α → Prop := fun s => s.data.classifier.Empty
  refine ⟨fun m hm₁ hm₂ => ?_, fun m => ?_⟩
  · exact .of_sat E E harr hdisj mem_ext_agree (sat_processTask hc hcfg harr hlarge₁ hfuel₁ hs₁ hm₁)
      (sat_processTask hc hcfg harr hlarge₂ hfuel₂ hs₂ hm₂)
  · exact .of_sat E E harr hdisj mem_ext_agree
      (sat_processTask_bits hc hcfg harr hlarge₁ hfuel₁ hs₁ m)
      (sat_processTask_bits hc hcfg harr hlarge₂ hfuel₂ hs₂ m)

end

/-- Objects in both arrays: numbers in the first forty places of the one and in forty places of the
other. -/
def twoRanges : Mem Arr (Slot ℕ) where
  slot p := match p.arr with
    | .input => if p.off < 40 then .full (p.off * 7 % 10) else .raw
    | .tmp => if 50 ≤ p.off ∧ p.off < 90 then .full (p.off * 3 % 10) else .raw
  byte _ := 0

/-- Forty of them are one task, the other forty another one. -/
theorem smallTasks_independent_forty :
    let execute := processTask (fun a b : ℕ => decide (a < b)) defaultConfig
      (sequential (fun a b => decide (a < b)) defaultConfig 40) ⟨.input, 0⟩ ⟨.tmp, 0⟩ 0
    Independent (slots Arr ℕ false) ⟨.input, 0⟩ ⟨.tmp, 0⟩ 0 ⟨0, 40, true⟩
      ⟨50, 90, false⟩ .clear .clear
      (execute ⟨0, 40, true⟩ .clear (Sorter.new (fun b => b) (fun b => 7 * b) 3))
      (execute ⟨50, 90, false⟩ .clear (Sorter.new (fun b => b) (fun b => 3 * b) 5)) twoRanges := by
  refine (smallTasks_independent (StrictWeak.of_linearOrder ℕ) defaultConfig_sound
    (by decide) (.inl (by decide))
    (by decide) (by decide) (by decide) (by decide) _ _ (Sorter.new_empty _ _ _)
    (Sorter.new_empty _ _ _)).1 twoRanges
    ⟨⟨(List.range 40).map fun i => i * 7 % 10, by simp, fun i v hv => ?_⟩, fun i hi => ?_⟩
    ⟨⟨(List.range 40).map fun i => (50 + i) * 3 % 10, by simp, fun i v hv => ?_⟩, fun i hi => ?_⟩
  · obtain ⟨hi, rfl⟩ := List.getElem?_eq_some_iff.mp hv
    have : i < 40 := by simpa using hi
    simp [twoRanges, this]
  · have : i < 40 := hi
    exact if_neg (show ¬ (50 ≤ 0 + 0 + i ∧ 0 + 0 + i < 90) by omega)
  · obtain ⟨hi, rfl⟩ := List.getElem?_eq_some_iff.mp hv
    have : i < 40 := by simpa using hi
    simp [twoRanges, show 50 + i < 90 by omega]
  · exact if_neg (show ¬ 0 + 50 + i < 40 by omega)

end Ps4o
