import Ps4o.InPlace.ElementwiseBlocks

/-!
# What the programs of the block permutation do

Between two accesses to the pointers a thread reads a block, writes one, or exchanges two of them.
The program that does so ends in the places in which the steps that move whole blocks end.

## What is proved

* `sat_readBlock`, `sat_writeBlock`, `sat_swapBlocks`, `sat_writeOverflow` — what each program does
  to the places that it uses.
* `Plan.settle` — the steps that move whole blocks have the same result.
-/

namespace Ps4o.InPlace

open Ps4o.Program Ps4o.Storage Ps4o.Order

variable {α : Type}

/-! ### What the programs do -/

section
variable {σ β : Type} {S : Semantics (Cmd Area α) Cmd.Ans σ (Loc Area)} {init : Bool} {B t : ℕ}
  (st : BlockStore S init B) (content : β → List α)

/-- There is what is to be in a place; `content` says what the elements of a block are. -/
def BlockStore.Ok (m : σ) (q : Ptr Area) : Option β → Prop
  | some x => st.Full m q (content x)
  | none => st.Vacant m q

/-- There is what is to be in some places. -/
def BlockStore.AllOk (p : Ptr Area) (m : σ) (vs : List (Place t × Option β)) : Prop :=
  ∀ e ∈ vs, st.Ok content m (e.1.ptr B p) e.2

variable {st content} {m m' : σ} {p q : Ptr Area}

theorem BlockStore.Ok.congr {v : Option β} (h : st.Ok content m q v)
    (hm : S.AgreeOn (seg q B) m m') : st.Ok content m' q v := by
  cases v with
  | some x => exact st.full_congr hm h
  | none => exact st.vacant_congr hm h

theorem BlockStore.AllOk.congr {vs : List (Place t × Option β)} (h : st.AllOk content p m vs)
    (hm : S.AgreeOn (spaceOf B p (vs.map Prod.fst)) m m') : st.AllOk content p m' vs := by
  intro e he
  exact (h e he).congr (hm.subset (seg_subset_spaceOf (List.mem_map_of_mem he)))

variable {comp : α → α → Bool} {eq : Bool} {c : Classifier α} {i : Fin t} {x y : β} {k : ℕ}

/-- A block is classified by its first element. -/
theorem sat_classifyHead (hx : st.Ok content m q (some x))
    (hhead : ∃ a l, content x = a :: l ∧ c.classify comp eq a = some k) :
    Sat S (seg q B) (classifyHead comp eq c q) m fun b m' => b = k ∧ m' = m := by
  obtain ⟨a, l, hcont, hk⟩ := hhead
  rw [BlockStore.Ok, hcont] at hx
  rw [classifyHead, sat_bind]
  refine (st.sat_readAt hx).imp ?_
  rintro b m' ⟨rfl, rfl⟩
  rw [sat_ofOption]
  exact ⟨k, hk, rfl, rfl⟩

theorem sat_classifyBlock (hy : st.Ok content m (swapOf B i false) (some y))
    (hhead : ∃ a l, content y = a :: l ∧ c.classify comp eq a = some k) :
    Sat S (spaceOf B p [Place.swap i false]) (classifyBlock comp B eq c i) m fun a m' =>
      a = .incWrite k false ∧ st.AllOk content p m' [(Place.swap i false, some y)] := by
  have hown : seg (swapOf B i false) B ⊆ spaceOf B p [Place.swap i false] :=
    seg_subset_spaceOf (List.mem_singleton_self (Place.swap i false))
  rw [classifyBlock, sat_bind]
  refine (sat_classifyHead hy hhead).mono hown ?_
  rintro b m' ⟨rfl, rfl⟩
  exact ⟨rfl, List.forall_mem_singleton.mpr hy⟩

theorem sat_writeOverflow {current : Bool} (hy : st.Ok content m (swapOf B i current) (some y))
    (ho : st.Ok content m (overflowOf B i) none) :
    Sat S (spaceOf B p [Place.swap i current, .overflow i]) (writeOverflow init B i current) m
      fun a m' => a = .overflowed ∧
        st.AllOk content p m' [(Place.swap i current, none), (.overflow i, some y)] := by
  have hown : seg (swapOf B i current) B ∪ seg (overflowOf B i) B ⊆
      spaceOf B p [Place.swap i current, .overflow i] :=
    seg_union_subset_spaceOf (List.mem_cons_self (a := Place.swap i current))
      (List.mem_cons_of_mem _ (List.mem_singleton_self (Place.overflow i)))
  rw [writeOverflow, sat_bind]
  refine (st.sat_writeToBlock (by simp [swapOf]) (by simp [overflowOf])
    (by simp [swapOf, overflowOf]) hy ho).mono hown ?_
  rintro _ m' ⟨hfull, hvacant⟩
  refine ⟨rfl, ?_⟩
  simp only [BlockStore.AllOk, List.forall_mem_cons]
  exact ⟨hvacant, hfull, by simp⟩

variable (hp : p.arr = .input) {r : ℤ}
include hp

theorem sat_readBlock (hx : st.Ok content m (p + r.toNat) (some x))
    (hv : st.Ok content m (swapOf B i false) none) :
    Sat S (spaceOf B p [Place.slot r, .swap i false]) (readBlock init B p i r) m fun a m' =>
      a = .stopRead ∧
        st.AllOk content p m' [(Place.slot r, none), (.swap i false, some x)] := by
  have hown : seg (p + r.toNat) B ∪ seg (swapOf B i false) B ⊆
      spaceOf B p [Place.slot r, .swap i false] :=
    seg_union_subset_spaceOf (List.mem_cons_self (a := (Place.slot r : Place t)))
      (List.mem_cons_of_mem _ (List.mem_singleton_self (Place.swap i false)))
  have hslot : (p + r.toNat).arr = .input := hp
  rw [readBlock, sat_bind]
  refine (st.sat_readFrom hslot (by simp [swapOf]) hx hv).mono hown ?_
  rintro _ m' ⟨hfull, hvacant⟩
  refine ⟨rfl, ?_⟩
  simp only [BlockStore.AllOk, List.forall_mem_cons]
  exact ⟨hvacant, hfull, by simp⟩

theorem sat_writeBlock {current : Bool} (hy : st.Ok content m (swapOf B i current) (some y))
    (hv : st.Ok content m (p + r.toNat) none) :
    Sat S (spaceOf B p [Place.swap i current, .slot r]) (writeBlock init B p i current r) m
      fun a m' => a = .tryRead ∧
        st.AllOk content p m' [(Place.swap i current, none), (.slot r, some y)] := by
  have hown : seg (swapOf B i current) B ∪ seg (p + r.toNat) B ⊆
      spaceOf B p [Place.swap i current, .slot r] :=
    seg_union_subset_spaceOf (List.mem_cons_self (a := Place.swap i current))
      (List.mem_cons_of_mem _ (List.mem_singleton_self (Place.slot r : Place t)))
  have hslot : (p + r.toNat).arr = .input := hp
  rw [writeBlock, sat_bind]
  refine (st.sat_writeTo (by simp [swapOf]) hslot hy hv).mono hown ?_
  rintro _ m' ⟨hfull, hvacant⟩
  refine ⟨rfl, ?_⟩
  simp only [BlockStore.AllOk, List.forall_mem_cons]
  exact ⟨hvacant, hfull, by simp⟩

/-- **A block that is where it belongs stays there; otherwise it changes places with the one in the
swap block.** -/
theorem sat_swapBlocks {dest : ℕ} {current : Bool} (hx : st.Ok content m (p + r.toNat) (some x))
    (hy : st.Ok content m (swapOf B i current) (some y))
    (hv : st.Ok content m (swapOf B i !current) none)
    (hhead : ∃ a l, content x = a :: l ∧ c.classify comp eq a = some k) :
    Sat S (spaceOf B p [Place.slot r, .swap i current, .swap i !current])
      (swapBlocks comp init B eq c p i dest current r) m fun a m' =>
        (k = dest ∧ a = .incWrite dest current ∧ st.AllOk content p m'
          [(Place.slot r, some x), (.swap i current, some y), (.swap i !current, none)]) ∨
        (k ≠ dest ∧ a = .incWrite k (!current) ∧ st.AllOk content p m'
          [(Place.slot r, some y), (.swap i current, none), (.swap i !current, some x)]) := by
  set L : List (Place t) := [Place.slot r, .swap i current, .swap i !current]
  have harr : (p + r.toNat).arr = .input := hp
  have hslot : Place.slot r ∈ L := List.mem_cons_self
  have hcurrent : Place.swap i current ∈ L := List.mem_cons_of_mem _ List.mem_cons_self
  have hother : Place.swap i (!current) ∈ L :=
    List.mem_cons_of_mem _ (List.mem_cons_of_mem _ (List.mem_singleton_self _))
  rw [swapBlocks, sat_bind]
  refine (sat_classifyHead hx hhead).mono (seg_subset_spaceOf hslot) ?_
  rintro b m₁ ⟨rfl, rfl⟩
  split
  · next heq =>
    refine .inl ⟨heq, rfl, ?_⟩
    simp only [BlockStore.AllOk, List.forall_mem_cons]
    exact ⟨hx, hy, hv, by simp⟩
  · next hne =>
    have hswap : ∀ b, (swapOf B i b).arr ≠ .input := by simp [swapOf]
    have hread := st.sat_readFrom harr (hswap (!current)) hx hv
    rw [sat_bind]
    refine hread.frame.mono (seg_union_subset_spaceOf hslot hother) ?_
    rintro _ m₂ ⟨⟨hfull, hvacant⟩, hag⟩
    -- the block in the other swap block is still there
    have hy₂ : st.Ok content m₂ (swapOf B i current) (some y) := by
      refine hy.congr (hag.subset fun l hl hmem => ?_)
      obtain ⟨u, hu, rfl⟩ := hl
      rcases hmem with hmem | hmem
      · exact notMem_seg_of_arr (by simp [swapOf, hp]) hmem
      · exact notMem_seg_of_arr (by simp [swapOf]) hmem
    have hwrite := st.sat_writeTo (hswap current) harr hy₂ hvacant
    rw [sat_bind]
    refine hwrite.frame.mono (seg_union_subset_spaceOf hcurrent hslot) ?_
    rintro _ m₃ ⟨⟨hfull', hvacant'⟩, hag'⟩
    have hx₃ : st.Ok content m₃ (swapOf B i !current) (some x) := by
      refine st.full_congr (hag'.subset fun l hl hmem => ?_) hfull
      obtain ⟨u, hu, rfl⟩ := hl
      rcases hmem with hmem | hmem
      · exact notMem_seg_of_arr (by simp [swapOf]) hmem
      · exact notMem_seg_of_arr (by simp [swapOf, hp]) hmem
    refine .inr ⟨hne, rfl, ?_⟩
    simp only [BlockStore.AllOk, List.forall_mem_cons]
    exact ⟨hfull', hvacant', hx₃, by simp⟩

end

/-! ### Moving whole blocks -/

/-- Where a thread is that moves whole blocks. -/
def Access.pc : Access → Pc
  | .tryRead | .overflowed => .tryRead
  | .decRead => .decRead
  | .noBlock => .noBlock
  | .stopRead => .stopRead
  | .incWrite dest current => .incWrite dest current
  | .isReading dest current write => .isReading dest current write
  | .finished => .finished

@[simp] theorem nextBucket_pc (count : ℕ) : (nextBucket count).pc = loop count := by
  unfold nextBucket loop
  split <;> rfl

section
variable {t : ℕ} {β : Type} (classify : Option β → ℕ) (i : Fin t) (s : Permuting t β)

/-- What thread `i` makes of some places, and what access it makes then, when it moves whole
blocks. -/
inductive Plan : Access → List (Place t × Option β) → Prop where
  /-- Nothing. -/
  | access (a : Access) (hpc : (s.threads i).pc = a.pc) : Plan a []
  /-- A block is read. -/
  | read (q : ℤ) (x : β) (hpc : (s.threads i).pc = .readBlock q) (hx : s.slot q = some x) :
    Plan .stopRead [(.slot q, none), (.swap i false, some x)]
  /-- The block that has been read is classified. -/
  | classify (y : β) (hpc : (s.threads i).pc = .incWrite (classify (some y)) false)
    (hy : (s.threads i).swap false = some y) :
    Plan (.incWrite (classify (some y)) false) [(.swap i false, some y)]
  /-- A block is written. -/
  | write (dest : ℕ) (current : Bool) (q : ℤ) (y : β)
    (hpc : (s.threads i).pc = .writeBlock dest current q)
    (hy : (s.threads i).swap current = some y) :
    Plan .tryRead [(.swap i current, none), (.slot q, some y)]
  /-- A block is written to the overflow block. -/
  | overflow (dest : ℕ) (current : Bool) (q : ℤ) (y : β)
    (hpc : (s.threads i).pc = .writeOverflow dest current q)
    (hy : (s.threads i).swap current = some y) :
    Plan .overflowed [(.swap i current, none), (.overflow i, some y)]
  /-- A block stays. -/
  | keep (dest : ℕ) (current : Bool) (q : ℤ) (x y : β)
    (hpc : (s.threads i).pc = .classify dest current q) (hx : s.slot q = some x)
    (hy : (s.threads i).swap current = some y) (hn : (s.threads i).swap (!current) = none)
    (hd : classify (some x) = dest) : Plan (.incWrite dest current)
      [(.slot q, some x), (.swap i current, some y), (.swap i !current, none)]
  /-- Two blocks are exchanged. -/
  | exchange (dest : ℕ) (current : Bool) (q : ℤ) (x y : β)
    (hpc : (s.threads i).pc = .classify dest current q) (hx : s.slot q = some x)
    (hy : (s.threads i).swap current = some y) (hd : classify (some x) ≠ dest) :
    Plan (.incWrite (classify (some x)) !current)
      [(.slot q, some y), (.swap i current, none), (.swap i !current, some x)]

end

section
variable {t : ℕ} {β : Type} {B n nb : ℕ} {classify : Option β → ℕ} {s₀ s s' : Permuting t β}
  {i : Fin t} {a : Access} {vs : List (Place t × Option β)}

/-- A plan depends on the thread and on the slots in it. -/
theorem Plan.congr (h : Plan classify i s a vs) (hth : s'.threads i = s.threads i)
    (hslot : ∀ q, .slot q ∈ vs.map Prod.fst → s'.slot q = s.slot q) : Plan classify i s' a vs := by
  cases h with
  | access a hpc => exact .access a (hth ▸ hpc)
  | read q x hpc hx => exact .read q x (hth ▸ hpc) ((hslot q (by simp)).trans hx)
  | classify y hpc hy => exact .classify y (hth ▸ hpc) (hth ▸ hy)
  | write dest current q y hpc hy => exact .write dest current q y (hth ▸ hpc) (hth ▸ hy)
  | overflow dest current q y hpc hy => exact .overflow dest current q y (hth ▸ hpc) (hth ▸ hy)
  | keep dest current q x y hpc hx hy hn hd =>
    exact .keep dest current q x y (hth ▸ hpc) ((hslot q (by simp)).trans hx) (hth ▸ hy) (hth ▸ hn)
      hd
  | exchange dest current q x y hpc hx hy hd =>
    exact .exchange dest current q x y (hth ▸ hpc) ((hslot q (by simp)).trans hx) (hth ▸ hy) hd

theorem Reachable.trans (h : Reachable B n nb classify s₀ s) (h' : Reachable B n nb classify s s') :
    Reachable B n nb classify s₀ s' := by
  induction h' with
  | start => exact h
  | step j _ ih => exact ih.step j

/-- Thread `i` has come to an access, and has left only some places otherwise than they were. -/
structure Settled (i : Fin t) (s s' : Permuting t β) (a : Access)
    (vs : List (Place t × Option β)) : Prop where
  pc : (s'.threads i).pc = a.pc
  count : (s'.threads i).count = (s.threads i).count
  readBucket : (s'.threads i).readBucket = (s.threads i).readBucket
  pointers : s'.pointers = s.pointers
  others : ∀ j, j ≠ i → s'.threads j = s.threads j
  made : ∀ e ∈ vs, s'.content e.1 = e.2
  same : ∀ l, l ∉ vs.map Prod.fst → s'.content l = s.content l
  overflow : (s'.threads i).overflow.isSome ↔
    (s.threads i).overflow.isSome ∨ a = .overflowed ∧ (s.threads i).pc ≠ .tryRead

/-- A thread that has changed a slot and its own variables. -/
theorem content_of_update {th : Thread β} (hth : s'.threads = Function.update s.threads i th)
    (l : Place t) : s'.content l = match l with
      | .slot q => s'.slot q
      | .swap j c => if j = i then th.swap c else (s.threads j).swap c
      | .overflow j => if j = i then th.overflow else (s.threads j).overflow := by
  cases l with
  | slot q => rfl
  | swap j c =>
    simp only [Permuting.content, hth, Function.update_apply]
    split <;> rfl
  | overflow j =>
    simp only [Permuting.content, hth, Function.update_apply]
    split <;> rfl

/-- A thread that has changed slots and its own variables only. -/
theorem settled_of_update {th : Thread β} (hth : s'.threads = Function.update s.threads i th)
    (hptr : s'.pointers = s.pointers) (hpc : th.pc = a.pc) (hcount : th.count = (s.threads i).count)
    (hbucket : th.readBucket = (s.threads i).readBucket) (hmade : ∀ e ∈ vs, s'.content e.1 = e.2)
    (hslot : ∀ q, .slot q ∉ vs.map Prod.fst → s'.slot q = s.slot q)
    (hswap : ∀ c, .swap i c ∉ vs.map Prod.fst → th.swap c = (s.threads i).swap c)
    (hover : .overflow i ∉ vs.map Prod.fst → th.overflow = (s.threads i).overflow)
    (hflag : th.overflow.isSome ↔
      (s.threads i).overflow.isSome ∨ a = .overflowed ∧ (s.threads i).pc ≠ .tryRead) :
    Settled i s s' a vs where
  pc := by rw [hth, Function.update_self, hpc]
  count := by rw [hth, Function.update_self, hcount]
  readBucket := by rw [hth, Function.update_self, hbucket]
  pointers := hptr
  others j hj := by rw [hth, Function.update_of_ne hj]
  made := hmade
  same l hl := by
    rw [content_of_update hth]
    cases l with
    | slot q => exact hslot q hl
    | swap j c =>
      by_cases hj : j = i
      · subst hj
        simpa [Permuting.content] using hswap c hl
      · simp [hj, Permuting.content]
    | overflow j =>
      by_cases hj : j = i
      · subst hj
        simpa [Permuting.content] using hover hl
      · simp [hj, Permuting.content]
  overflow := by
    rw [hth, Function.update_self]
    exact hflag

/-- **The plan is carried out** in steps that move whole blocks. -/
theorem Plan.settle (h : Plan classify i s a vs) :
    ∃ s', Reachable B n nb classify s s' ∧ Settled i s s' a vs := by
  cases h with
  | access a hpc =>
    refine ⟨s, .start, hpc, rfl, rfl, rfl, fun _ _ => rfl, by simp, fun _ _ => rfl, ?_⟩
    cases a <;> simp_all [Access.pc]
  | classify y hpc hy =>
    refine ⟨s, .start, hpc, rfl, rfl, rfl, fun _ _ => rfl, ?_, fun _ _ => rfl, by simp⟩
    simpa [Permuting.content] using hy
  | read q x hpc hx =>
    refine ⟨_, .step i .start, ?_⟩
    simp only [step, hpc, hx]
    refine settled_of_update rfl rfl rfl rfl rfl ?_ ?_ ?_ (fun _ => rfl) (by simp)
    · simp [Permuting.content, Permuting.write]
    · intro q' hq'
      exact Function.update_of_ne (by simpa using hq') ..
    · intro c hc
      exact Function.update_of_ne (by simpa using hc) ..
  | write dest current q y hpc hy =>
    refine ⟨_, .step i .start, ?_⟩
    simp only [step, hpc, hy]
    refine settled_of_update rfl rfl rfl rfl rfl ?_ ?_ ?_ (fun _ => rfl) (by simp)
    · simp [Permuting.content, Permuting.write]
    · intro q' hq'
      exact Function.update_of_ne (by simpa using hq') ..
    · intro c hc
      exact Function.update_of_ne (by simpa using hc) ..
  | overflow dest current q y hpc hy =>
    refine ⟨_, .step i .start, ?_⟩
    simp only [step, hpc, hy]
    refine settled_of_update rfl rfl rfl rfl rfl ?_ (fun _ _ => rfl) ?_ (by simp) (by simp [hpc])
    · simp [Permuting.content, Permuting.continue]
    · intro c hc
      exact Function.update_of_ne (by simpa using hc) ..
  | keep dest current q x y hpc hx hy hn hd =>
    refine ⟨_, .step i .start, ?_⟩
    simp only [step, hpc, hx, if_pos hd]
    refine settled_of_update rfl rfl rfl rfl rfl ?_ (fun _ _ => rfl) (fun _ _ => rfl)
      (fun _ => rfl) (by simp)
    simp [Permuting.content, Permuting.continue, hx, hy, hn]
  | exchange dest current q x y hpc hx hy hd =>
    have hsteps : step B n nb classify i (step B n nb classify i (step B n nb classify i s)) =
        ⟨Function.update s.slot q (some y), s.pointers, Function.update s.threads i
          ⟨.incWrite (classify (some x)) !current, (s.threads i).count, (s.threads i).readBucket,
            Function.update (Function.update (s.threads i).swap (!current) (some x)) current none,
            (s.threads i).overflow⟩⟩ := by
      simp [step, hpc, hx, hy, hd, Permuting.continue, Permuting.write]
    refine ⟨_, .step i (.step i (.step i .start)), ?_⟩
    rw [hsteps]
    refine settled_of_update rfl rfl rfl rfl rfl ?_ ?_ ?_ (fun _ => rfl) (by simp)
    · simp [Permuting.content]
    · intro q' hq'
      exact Function.update_of_ne (by simpa using hq') ..
    · intro c hc
      simp at hc

end

end Ps4o.InPlace
