import Ps4o.ParallelClassification
import Ps4o.Partitioning

/-!
# Parallel distribution

All threads move the elements of their stripes to the buckets at once (`distributeElements` in
`partitioning.hpp`), with the offsets that the scan has computed.

## What is proved

* `count_writes` — a slot that is only ever constructed in is written once, when it is raw before
  and holds an object afterwards.
* `parallel_eq_sequential` — whatever the schedule, no two threads write the same slot, every slot
  of the target is written once, and the result is what one thread makes of the whole range.
-/

namespace Ps4o

open Ps4o.Program Ps4o.Storage Ps4o.Order Ps4o.Order.Stripes

variable {A α : Type}

/-- All threads distribute their stripes of the `n` elements from `p` on. -/
def distributionPool (p tmp : Ptr A) (n t oracle : ℕ) (bucketStart : ℕ → ℕ → ℕ)
    (m : Mem A (Slot α)) : Pool (Cmd A α) Cmd.Ans (Fin t) (ℕ → ℕ) (Mem A (Slot α)) where
  prog i := distributeElements (p + first n t i)
    (first n t (i + 1) - first n t i) tmp (oracle + first n t i)
    (bucketStart i)
  mem := m

/-- The buckets that the oracle names for the `n` elements from `oracle` on. -/
def oracleKeys (m : Mem A (Slot α)) (oracle n : ℕ) : List ℕ :=
  (List.range n).map fun j => (m.byte (oracle + j)).toNat

@[simp] theorem length_oracleKeys (m : Mem A (Slot α)) (oracle n : ℕ) :
    (oracleKeys m oracle n).length = n := by
  simp [oracleKeys]

theorem oracleKeys_getElem? {m : Mem A (Slot α)} {oracle n j b : ℕ}
    (h : (oracleKeys m oracle n)[j]? = some b) : m.byte (oracle + j) = UInt8.ofNat b := by
  rw [oracleKeys, List.getElem?_map] at h
  obtain ⟨i, hi, rfl⟩ := Option.map_eq_some_iff.mp h
  obtain ⟨-, rfl⟩ := List.getElem?_eq_some_iff.mp hi
  simp

theorem oracleKeys_lt {m : Mem A (Slot α)} {oracle n b : ℕ} (h : b ∈ oracleKeys m oracle n) :
    b < 256 := by
  obtain ⟨j, -, rfl⟩ := List.mem_map.mp h
  exact UInt8.toNat_lt _

section
variable [DecidableEq A]

/-! ### Writing once -/

/-- Whether a slot holds an object, even one that has been moved from. -/
def alive (v : Slot α) : ℕ := if v matches .raw then 0 else 1

/-- A slot that is only constructed in: every time it is written, it comes to life. -/
theorem count_writes {ι β : Type} [DecidableEq ι] {q : Ptr A}
    {P P' : Pool (Cmd A α) Cmd.Ans ι β (Mem A (Slot α))} {sched : List (ι × ℕ)}
    {log : List (ι × Cmd A α)} (hr : Pool.run (slots A α false) sched P = some (log, P'))
    (hcon : ∀ e ∈ log, e.2.writes q = true → ∃ a, e.2 = .construct q a) :
    (log.countP fun e => e.2.writes q) + alive (P.mem.slot q) = alive (P'.mem.slot q) := by
  induction sched generalizing P log with
  | nil =>
    obtain ⟨rfl, rfl⟩ := Prod.mk.inj (Option.some.inj hr)
    simp
  | cons e sched ih =>
    obtain ⟨i, c⟩ := e
    obtain ⟨o, P₁, log₁, hstep, hrun, rfl⟩ := Pool.run_cons.mp hr
    rw [← ih hrun fun e he => hcon e (List.mem_cons_of_mem _ he), List.countP_cons]
    obtain ⟨k, a, m', -, hexec, rfl⟩ := Pool.step_cases hstep
    cases hw : o.writes q with
    | false =>
      rw [show m'.slot q = P.mem.slot q from slotExec_of_not_writes hexec hw]
      simp
    | true =>
      obtain ⟨v, rfl⟩ := hcon (i, o) (List.mem_cons_self ..) hw
      simp only [slots, slotExec] at hexec
      split at hexec
      · next hraw =>
        obtain ⟨-, rfl⟩ := Prod.mk.inj (Option.some.inj hexec)
        simp [hraw, alive]
      · cases hexec

/-- Distributing writes to the target only by constructing. -/
theorem distributeElements_all (p tmp : Ptr A) (n oracle : ℕ) (bs : ℕ → ℕ) :
    (distributeElements p n tmp oracle bs : Act A α (ℕ → ℕ)).All fun o =>
      ∀ q, o.writes q = true → q.arr = p.arr ∨ ∃ a, o = .construct q a := by
  refine Prog.All.loop (fun j bs => ?_) n bs
  refine ⟨fun q h => by simp [Cmd.writes] at h,
    fun b => ⟨fun q h => ?_, fun v => ⟨fun q h => ?_, fun _ => ⟨fun q h => ?_,
    fun _ => trivial⟩⟩⟩⟩
  · simp only [Cmd.writes, decide_eq_true_eq] at h
    exact .inl (by rw [h, Ptr.add_arr])
  · simp only [Cmd.writes, decide_eq_true_eq] at h
    exact .inr ⟨v, by rw [h]⟩
  · simp only [Cmd.writes, decide_eq_true_eq] at h
    exact .inl (by rw [h, Ptr.add_arr])

theorem distributionPool_all (p tmp : Ptr A) (n t oracle : ℕ) (bucketStart : ℕ → ℕ → ℕ)
    (m : Mem A (Slot α)) (i : Fin t) :
    ((distributionPool p tmp n t oracle bucketStart m).prog i).All fun o =>
      ∀ q, o.writes q = true → q.arr = p.arr ∨ ∃ a, o = .construct q a :=
  distributeElements_all (p + first n t i) tmp _ _ _

/-! ### The result -/

/-- The elements of a range have been distributed, and nothing else has happened. -/
structure Scattered (p tmp : Ptr A) (ks : List ℕ) (xs : List α) (m m' : Mem A (Slot α)) : Prop where
  source : ∀ j < xs.length, m'.slot (p + j) = .raw
  target : ∀ j x, xs[j]? = some x → m'.slot (tmp + dest ks j) = .full x
  bytes : m'.byte = m.byte
  others : ∀ q, (∀ j < xs.length, q ≠ p + j ∧ q ≠ tmp + dest ks j) → m'.slot q = m.slot q

variable {p tmp : Ptr A} {ks : List ℕ} {xs : List α} {m m₁ m₂ : Mem A (Slot α)}

omit [DecidableEq A] in
/-- There is only one way to distribute. -/
theorem Scattered.unique (h₁ : Scattered p tmp ks xs m m₁) (h₂ : Scattered p tmp ks xs m m₂) :
    m₁ = m₂ := by
  obtain ⟨slot₁, byte₁⟩ := m₁
  obtain ⟨slot₂, byte₂⟩ := m₂
  rw [Mem.mk.injEq]
  refine ⟨funext fun q => ?_, h₁.bytes.trans h₂.bytes.symm⟩
  by_cases hq : ∀ j < xs.length, q ≠ p + j ∧ q ≠ tmp + dest ks j
  · exact (h₁.others q hq).trans (h₂.others q hq).symm
  · push Not at hq
    obtain ⟨j, hj, hq⟩ := hq
    by_cases hp : q = p + j
    · rw [hp]
      exact (h₁.source j hj).trans (h₂.source j hj).symm
    · rw [hq hp]
      have hx := List.getElem?_eq_getElem hj
      exact (h₁.target j _ hx).trans (h₂.target j _ hx).symm

variable {lax : Bool} {oracle : ℕ}

variable (lax) in
/-- One thread distributes the whole range. -/
theorem sat_scatter (bs : ℕ → ℕ) (hl : ks.length = xs.length) (hbyte : ∀ k ∈ ks, k < 256)
    (hbs : ∀ b ∈ ks, bs b = start ks b) (harr : p.arr ≠ tmp.arr) (hm : Has m p (xs.map .full))
    (ho : Oracle m oracle ks) (htmp : Raw m tmp xs.length) :
    Sat (slots A α lax) (distributeRegion p tmp oracle ks 0 xs.length)
      (distributeElements p xs.length tmp oracle bs) m fun _ m' => Scattered p tmp ks xs m m' := by
  have hsat := sat_distributeElements lax 0 xs.length oracle bs hl (by omega) hbyte
    (fun b hb => (hbs b hb).trans (by simp [cursor, seen])) harr
    (fun j x _ _ hx => hm j _ (by rw [List.getElem?_map, hx]; rfl)) (fun j b _ _ hb => ho j b hb)
    (fun j _ hj => htmp _ (by rw [← hl]; exact dest_lt (by omega)))
  simp only [Ptr.add_zero, Nat.add_zero, Nat.zero_add] at hsat
  refine hsat.frame.imp ?_
  rintro _ m' ⟨⟨-, hbytes, hsource, htarget⟩, hf⟩
  refine ⟨fun j hj => hsource j (Nat.zero_le j) hj, fun j x hx => ?_, hbytes,
    fun q hq => (hf (.elem q) ?_).symm⟩
  · exact htarget j x (Nat.zero_le j) (List.getElem?_eq_some_iff.mp hx).1 hx
  · rintro ⟨j, -, hj, h | h | h⟩
    · exact (hq j (by omega)).1 (Loc.elem.inj h)
    · exact (hq j (by omega)).2 (Loc.elem.inj h)
    · cases h

omit [DecidableEq A] in
/-- Different stripes go to different places. -/
theorem distributeRegion_disjoint {t i j : ℕ} (hl : ks.length = xs.length)
    (harr : p.arr ≠ tmp.arr) (hij : i ≠ j) {l : Loc A}
    (hi : l ∈ distributeRegion p tmp oracle ks (first xs.length t i)
      (first xs.length t (i + 1) - first xs.length t i)) :
    l ∉ distributeRegion p tmp oracle ks (first xs.length t j)
      (first xs.length t (j + 1) - first xs.length t j) := by
  have hne : ∀ i j : ℕ, p + i ≠ tmp + j := fun i j h => harr (by simpa using congrArg Ptr.arr h)
  have hle : ∀ i, first xs.length t i ≤ ks.length := fun i => hl ▸ first_le
  have hsep : first xs.length t (i + 1) ≤ first xs.length t j ∨
      first xs.length t (j + 1) ≤ first xs.length t i := by
    rcases Nat.lt_or_gt_of_ne hij with h | h
    · exact .inl (first_mono h)
    · exact .inr (first_mono h)
  obtain ⟨u, hu₁, hu₂, hu⟩ := hi
  rintro ⟨v, hv₁, hv₂, hv⟩
  have hiu := hle (i + 1)
  have hjv := hle (j + 1)
  have huv : u = v := by
    rcases hu with rfl | rfl | rfl <;> rcases hv with hv | hv | hv
    · exact (Ptr.add_inj p).mp (Loc.elem.inj hv)
    · exact absurd (Loc.elem.inj hv) (hne _ _)
    · cases hv
    · exact absurd (Loc.elem.inj hv).symm (hne _ _)
    · exact dest_inj (by omega) (by omega) ((Ptr.add_inj tmp).mp (Loc.elem.inj hv))
    · cases hv
    · cases hv
    · cases hv
    · exact Nat.add_left_cancel (Loc.byte.inj hv)
  omega

variable (lax) in
/-- Every thread is right on its own stripe. -/
theorem distributionPool_isolated {t : ℕ} {bucketStart : ℕ → ℕ → ℕ} (hl : ks.length = xs.length)
    (hbyte : ∀ k ∈ ks, k < 256)
    (hbs : ∀ i < t, ∀ b ∈ ks, bucketStart i b = cursor ks (first xs.length t i) b)
    (harr : p.arr ≠ tmp.arr) (hm : Has m p (xs.map .full)) (ho : Oracle m oracle ks)
    (htmp : Raw m tmp xs.length) : Pool.Isolated (slots A α lax)
      (fun i : Fin t => distributeRegion p tmp oracle ks (first xs.length t i)
        (first xs.length t (i + 1) - first xs.length t i))
      (fun i _ m' => m'.byte = m.byte ∧
        (∀ j, first xs.length t i ≤ j → j < first xs.length t (i + 1) → m'.slot (p + j) = .raw) ∧
        ∀ j x, first xs.length t i ≤ j → j < first xs.length t (i + 1) → xs[j]? = some x →
          m'.slot (tmp + dest ks j) = .full x)
      (distributionPool p tmp xs.length t oracle bucketStart m) := by
  refine ⟨fun i j hij l hli => distributeRegion_disjoint hl harr (fun h => hij (Fin.ext h)) hli,
    fun i => ?_⟩
  have hend : first xs.length t i + (first xs.length t (i + 1) - first xs.length t i) =
      first xs.length t (i + 1) :=
    Nat.add_sub_of_le first_le_succ
  have hle : first xs.length t (i + 1) ≤ ks.length := hl ▸ first_le
  refine (sat_distributeElements lax (first xs.length t i)
    (first xs.length t (i + 1) - first xs.length t i) oracle
    (bucketStart i) hl (by omega) hbyte (hbs i i.isLt) harr
    (fun j x _ _ hx => hm j _ (by rw [List.getElem?_map, hx]; rfl)) (fun j b _ _ hb => ho j b hb)
    (fun j _ hj => htmp _ (by rw [← hl]; exact dest_lt (by omega)))).imp ?_
  rintro _ m' ⟨-, hbytes, hsource, htarget⟩
  rw [hend] at hsource htarget
  exact ⟨hbytes, hsource, htarget⟩

/-- When all threads are done, all elements have been distributed. -/
theorem scattered_of_returned {t : ℕ} {bucketStart : ℕ → ℕ → ℕ} (ht : 1 ≤ t)
    (hl : ks.length = xs.length) (hbyte : ∀ k ∈ ks, k < 256)
    (hbs : ∀ i < t, ∀ b ∈ ks, bucketStart i b = cursor ks (first xs.length t i) b)
    (harr : p.arr ≠ tmp.arr) (hm : Has m p (xs.map .full)) (ho : Oracle m oracle ks)
    (htmp : Raw m tmp xs.length) {sched : List (Fin t × ℕ)} {log : List (Fin t × Cmd A α)}
    {P : Pool (Cmd A α) Cmd.Ans (Fin t) (ℕ → ℕ) (Mem A (Slot α))}
    (hrun : Pool.run (slots A α lax) sched
      (distributionPool p tmp xs.length t oracle bucketStart m) = some (log, P))
    (hdone : ∀ i, P.Returned i) : Scattered p tmp ks xs m P.mem := by
  obtain ⟨-, -, hret, hframe⟩ :=
    (distributionPool_isolated lax hl hbyte hbs harr hm ho htmp).run hrun
  have hown : ∀ j (hj : j < xs.length), ∃ i : Fin t, first xs.length t i ≤ j ∧
      j < first xs.length t (i + 1) :=
    fun j hj => ⟨⟨owner xs.length t j, owner_lt ht hj⟩, first_owner_le ht hj, lt_first_owner ht hj⟩
  refine ⟨fun j hj => ?_, fun j x hx => ?_, ?_, fun q hq => (hframe (.elem q) ?_).symm⟩
  · obtain ⟨i, hi₁, hi₂⟩ := hown j hj
    obtain ⟨b, hb⟩ := hdone i
    obtain ⟨m₂, ⟨-, hsource, -⟩, hag⟩ := hret i b hb
    exact (hag (.elem (p + j)) ⟨j, hi₁, by omega, .inl rfl⟩).symm.trans (hsource j hi₁ hi₂)
  · obtain ⟨i, hi₁, hi₂⟩ := hown j (List.getElem?_eq_some_iff.mp hx).1
    obtain ⟨b, hb⟩ := hdone i
    obtain ⟨m₂, ⟨-, -, htarget⟩, hag⟩ := hret i b hb
    exact (hag (.elem (tmp + dest ks j)) ⟨j, hi₁, by omega, .inr (.inl rfl)⟩).symm.trans
      (htarget j x hi₁ hi₂ hx)
  · funext y
    by_cases hy : ∃ i : Fin t, .byte y ∈ distributeRegion p tmp oracle ks (first xs.length t i)
        (first xs.length t (i + 1) - first xs.length t i)
    · obtain ⟨i, hi⟩ := hy
      obtain ⟨b, hb⟩ := hdone i
      obtain ⟨m₂, ⟨hbytes, -, -⟩, hag⟩ := hret i b hb
      exact (hag (.byte y) hi).symm.trans (congrFun hbytes y)
    · exact (hframe (.byte y) fun h => hy (Set.mem_iUnion.mp h)).symm
  · intro h
    obtain ⟨i, j, hj₁, hj₂, h | h | h⟩ := Set.mem_iUnion.mp h
    · have : first xs.length t (i + 1) ≤ xs.length := first_le
      exact (hq j (by omega)).1 (Loc.elem.inj h)
    · have : first xs.length t (i + 1) ≤ xs.length := first_le
      exact (hq j (by omega)).2 (Loc.elem.inj h)
    · cases h

omit [DecidableEq A] in
/-- The buckets then stand one after the other. -/
theorem Scattered.has {nb : ℕ} (h : Scattered p tmp ks xs m m₁) (hl : ks.length = xs.length)
    (hkeys : ∀ k ∈ ks, k < nb) : Has m₁ tmp ((distributed ks xs nb).map .full) := by
  intro x v hv
  obtain ⟨y, hy, rfl⟩ := Option.map_eq_some_iff.mp (by rwa [List.getElem?_map] at hv)
  have hx : x < ks.length := by
    have := (List.getElem?_eq_some_iff.mp hy).1
    rwa [length_distributed hl, start_eq_length hkeys] at this
  obtain ⟨j, hj, rfl⟩ := dest_surj hx
  have hxj := List.getElem?_eq_getElem (show j < xs.length by omega)
  have hkj := List.getElem?_eq_getElem hj
  rw [distributed_dest hl (hkeys _ (List.getElem_mem hj)) hkj hxj] at hy
  exact h.target j y (hxj.trans hy)

/-- **Parallel distribution is sequential distribution.** For every classification of the elements,
and rows that are its histograms on the stripes: however the threads take turns, none is ever
stuck and no two write the same slot. The buckets begin where they do sequentially, and when all
threads are done, every slot of the target has been written exactly once, each bucket holds its
elements in the order of the input, and the memory is what one thread alone makes of it. -/
theorem parallel_eq_sequential {t nb : ℕ} (ht : 1 ≤ t) (harr : p.arr ≠ tmp.arr)
    (hm : Has m p (xs.map .full)) (htmp : Raw m tmp xs.length)
    (hkeys : ∀ k ∈ oracleKeys m oracle xs.length, k < nb) {rows : ℕ → ℕ → ℕ}
    (hrows : ∀ i < t, ∀ b < nb, rows i b = (slice (oracleKeys m oracle xs.length) t i).count b)
    (o : Offsets) {s : Sorter α} (hs : s.numBuckets = nb)
    (hsize : ∀ b < nb, s.data.bucketSize b = (oracleKeys m oracle xs.length).count b)
    {sched : List (Fin t × ℕ)} {log : List (Fin t × Cmd A α)}
    {P : Pool (Cmd A α) Cmd.Ans (Fin t) (ℕ → ℕ) (Mem A (Slot α))}
    (hrun : Pool.run (slots A α false) sched
      (distributionPool p tmp xs.length t oracle (offsetScan rows t nb o).bucketStart m) =
      some (log, P)) :
    (∀ i, ¬ P.Stuck (slots A α false) i) ∧
      (∀ e ∈ log, ∀ e' ∈ log, ∀ q, e.2.writes q = true → e'.2.writes q = true → e.1 = e'.1) ∧
      (∀ b ≤ nb, (offsetScan rows t nb o).bucketStartSave b =
        (findBoundaries s).data.bucketStart b) ∧
      ((∀ i, P.Returned i) →
        (∀ x < xs.length, (log.countP fun e => e.2.writes (tmp + x)) = 1) ∧
        Has P.mem tmp ((distributed (oracleKeys m oracle xs.length) xs nb).map .full) ∧
        ∀ choices, ∃ bs choices', Program.run (slots A α false)
          (distributeElements p xs.length tmp oracle (findBoundaries s).data.bucketStart)
            choices m = .ok (bs, choices', P.mem)) := by
  set ks := oracleKeys m oracle xs.length with hks
  have hl : ks.length = xs.length := length_oracleKeys m oracle xs.length
  have hbyte : ∀ k ∈ ks, k < 256 := fun k hk => oracleKeys_lt hk
  have ho : Oracle m oracle ks := fun j b hb => oracleKeys_getElem? hb
  have hbs : ∀ b ≤ nb, (findBoundaries s).data.bucketStart b = start ks b := fun b hb =>
    (if_pos (hs ▸ hb)).trans (partialSum_count fun c hc => hsize c (by omega))
  have hcursor : ∀ i < t, ∀ b ∈ ks, (offsetScan rows t nb o).bucketStart i b =
      cursor ks (first xs.length t i) b :=
    fun i hi b hb => by
      rw [offsetScan_cursor o ht hrows hi (hkeys b hb), hl]
      rfl
  have hiso := distributionPool_isolated false hl hbyte hcursor harr hm ho htmp
  obtain ⟨hstuck, hfoot, -, -⟩ := hiso.run hrun
  refine ⟨hstuck, fun e he e' he' q hq hq' => ?_,
    fun b hb => (offsetScan_save o ht hrows hb).trans (hbs b hb).symm,
    fun hdone => ?_⟩
  · by_contra hne
    exact hiso.disjoint e.1 e'.1 hne _ (hfoot e he (Cmd.mem_foot_of_writes hq))
      (hfoot e' he' (Cmd.mem_foot_of_writes hq'))
  have hscat := scattered_of_returned ht hl hbyte hcursor harr hm ho htmp hrun hdone
  refine ⟨fun x hx => ?_, hscat.has hl hkeys, fun choices => ?_⟩
  · have hcon : ∀ e ∈ log, e.2.writes (tmp + x) = true → ∃ a, e.2 = .construct (tmp + x) a :=
        fun e he hw =>
      (Pool.all_of_run (distributionPool_all _ _ _ _ _ _ _) hrun e he
        (tmp + x) hw).resolve_left harr.symm
    have hcount := count_writes hrun hcon
    obtain ⟨j, hj, hd⟩ : ∃ j < ks.length, dest ks j = x := dest_surj (hl ▸ hx)
    have hafter := hscat.target j _ (List.getElem?_eq_getElem (show j < xs.length by omega))
    rw [hd] at hafter
    rw [hafter, show (distributionPool p tmp xs.length t oracle
      (offsetScan rows t nb o).bucketStart m).mem.slot (tmp + x) = .raw from htmp x hx] at hcount
    exact hcount
  · obtain ⟨bs, c', m', hseq, hm'⟩ :=
      (sat_scatter false (findBoundaries s).data.bucketStart hl hbyte
      (fun b hb => hbs b (hkeys b hb).le) harr hm ho htmp).run choices
    exact ⟨bs, c', by rw [hseq, hm'.unique hscat]⟩

/-- Three elements, the second of which goes to the first bucket. -/
def three : Mem Arr (Slot ℕ) := Mem.ofList ⟨.input, 0⟩ [7, 8, 9] fun j => if j = 1 then 0 else 1

/-- The histograms of the first two elements, and of the third. -/
def threeRows (i b : ℕ) : ℕ := if i = 1 ∧ b = 0 then 0 else 1

/-- Two threads that take turns. -/
def threeTurns {ι : Type} (i j : ι) : List (ι × ℕ) :=
  [i, j, i, j, j, i, j, i, i, i, i, i].map (·, 0)

/-- Two threads distribute three elements. -/
theorem parallel_eq_sequential_three :
    ∃ log P, Pool.run (slots Arr ℕ false) (threeTurns (0 : Fin 2) 1)
    (distributionPool ⟨.input, 0⟩ ⟨.tmp, 0⟩ 3 2 0
      (offsetScan threeRows 2 2 ⟨fun _ _ => 0, fun _ => 0, 0⟩).bucketStart three) = some (log, P) ∧
    (∀ i, P.Returned i) ∧ Has P.mem ⟨.tmp, 0⟩ [.full 8, .full 7, .full 9] := by
  have hraw : Raw three ⟨.tmp, 0⟩ 3 := raw_ofList _ _ (by decide) 3
  have hkeys : ∀ k ∈ oracleKeys three 0 3, k < 2 := by decide
  have hrows : ∀ i < 2, ∀ b < 2, threeRows i b = (slice (oracleKeys three 0 3) 2 i).count b := by
    decide
  have hsize : ∀ b < 2, b + 1 = (oracleKeys three 0 3).count b := by decide
  have h := parallel_eq_sequential (by decide) (show Arr.input ≠ .tmp by decide)
    (has_ofList _ [7, 8, 9] _) hraw hkeys hrows ⟨fun _ _ => 0, fun _ => 0, 0⟩
    (show (⟨⟨fun _ => 0, fun b => b + 1, ⟨fun _ => .raw, fun _ => .raw, 0, 0⟩⟩, 2⟩ : Sorter
      ℕ).numBuckets = 2 from rfl)
    hsize (show Pool.run _ (threeTurns 0 1) _ = some (_, _) from rfl)
  refine ⟨_, _, rfl, ?_, (h.2.2.2 ?_).2.1⟩
  all_goals exact fun i => match i with
    | 0 => ⟨_, rfl⟩
    | 1 => ⟨_, rfl⟩

end

end Ps4o
