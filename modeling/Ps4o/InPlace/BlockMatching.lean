import Ps4o.InPlace.BlockPrograms

/-!
# Threads that move elements and threads that move blocks

A state in which some threads are in the middle of a program matches a state in which the blocks
they move are still where they were (`Matches`): a thread's program does what its next steps do, and
it has the places that it uses to itself.

## What is proved

* `Matches.command` — a command of a program is matched by no step.
* `Matches.settle` — the end of a program is matched by the steps that move its blocks.
* `Matches.advance` — a thread that begins with a program stays matched.
-/

namespace Ps4o.InPlace

open Ps4o.Program Ps4o.Storage Ps4o.Order

variable {α : Type}

/-! ### What the threads are doing -/

section
variable {σ β : Type} {S : Semantics (Cmd Area α) Cmd.Ans σ (Loc Area)} {init : Bool} {B t : ℕ}
  (st : BlockStore S init B) (content : β → List α) (classify : Option β → ℕ) (n : ℕ) (p : Ptr Area)

/-- What is left of a program of thread `i` touches only the places `L`, and makes of them what the
thread makes of them that moves whole blocks. -/
def Moving (i : Fin t) (s : Permuting t β) (L : List (Place t)) (prog : Act Area α Access) (m : σ) :
    Prop :=
  Sat S (spaceOf B p L) prog m fun a m' => ∃ vs, Plan classify i s a vs ∧ vs.map Prod.fst = L ∧
    st.AllOk content p m' vs

/-- The threads, and threads that move whole blocks: where thread `i` is moving a block, from and to
the places `L i`, the other one has not moved it yet. -/
structure Matches (f : Working t α σ) (s : Permuting t β) (L : Fin t → List (Place t)) : Prop where
  pointers : f.pointers = s.pointers
  count : ∀ i, (f.workers i).count = (s.threads i).count
  readBucket : ∀ i, (f.workers i).readBucket = (s.threads i).readBucket
  owns : ∀ i, ∀ l ∈ L i, s.Owns i l
  doing : ∀ i, Moving st content classify p i s (L i) (f.workers i).prog f.mem
  busy : ∀ i, L i = [] → ∃ a, (f.workers i).prog = .ret a
  free : ∀ l, l.Real B n → (∀ i, l ∉ L i) → st.Ok content f.mem (l.ptr B p) (s.content l)
  overflow : ∀ i, (s.threads i).overflow.isSome ↔ (f.workers i).overflow = true ∨
    (f.workers i).prog = .ret .overflowed ∧ (s.threads i).pc = .tryRead

variable {st content classify n p} {s s' : Permuting t β} {i : Fin t} {L : List (Place t)}
  {prog : Act Area α Access} {m m' : σ}

/-- What happens elsewhere does not matter. -/
theorem Moving.env (h : Moving st content classify p i s L prog m)
    (hm : S.AgreeOn (spaceOf B p L) m m') : Moving st content classify p i s L prog m' := by
  refine (h.local hm).imp ?_
  rintro a m₂ ⟨m₁, ⟨vs, hplan, hL, hok⟩, hag⟩
  exact ⟨vs, hplan, hL, hok.congr (hL ▸ hag)⟩

/-- What other threads do does not matter. -/
theorem Moving.congr (h : Moving st content classify p i s L prog m)
    (hth : s'.threads i = s.threads i) (hslot : ∀ q, .slot q ∈ L → s'.slot q = s.slot q) :
    Moving st content classify p i s' L prog m := by
  refine h.imp ?_
  rintro a m₂ ⟨vs, hplan, hL, hok⟩
  exact ⟨vs, hplan.congr hth fun q hq => hslot q (hL ▸ hq), hL, hok⟩

/-- A thread that is at the end of a program, but whose block has not been moved. -/
theorem Moving.pc_ne {a : Access} (h : Moving st content classify p i s L (.ret a) m) (hL : L ≠ [])
    (ha : a = .overflowed) : (s.threads i).pc ≠ .tryRead := by
  subst ha
  obtain ⟨vs, hplan, rfl, -⟩ := h
  cases hplan with
  | access a _ => exact absurd rfl hL
  | overflow dest current q y hpc hy => simp [hpc]

/-- A thread that is not moving a block. -/
theorem moving_ret {a : Access} (hpc : (s.threads i).pc = a.pc) :
    Moving st content classify p i s [] (.ret a) m :=
  ⟨[], .access a hpc, rfl, fun _ he => absurd he List.not_mem_nil⟩

end

section
variable {σ β : Type} [Fintype β] {S : Semantics (Cmd Area α) Cmd.Ans σ (Loc Area)} {init : Bool}
  {B t n nb : ℕ} {bss full : ℕ → ℕ} {classify : Option β → ℕ} {s₀ s s' : Permuting t β}
  {st : BlockStore S init B} {content : β → List α} {p : Ptr Area} {f f' : Working t α σ}
  {L : Fin t → List (Place t)} {i : Fin t}
  (h : Boundaries false nb n bss) (hB : 1 ≤ B) (hcl : Classified B n nb bss full classify s₀)
  (hp : p.arr = .input)
include h hB hcl

/-- No place is used by two threads. -/
theorem Matches.notMem (hM : Matches st content classify n p f s L)
    (hr : Reachable B n nb classify s₀ s) {j : Fin t} (hij : j ≠ i) {l : Place t} (hl : l ∈ L i) :
    l ∉ L j := fun hl' =>
  hij ((hM.owns i l hl).unique h hcl (hr.inv h hB hcl) (hM.owns j l hl'))

/-- A thread that begins with a place finds there what is to be there. -/
theorem Matches.ok_of_owns (hM : Matches st content classify n p f s L)
    (hr : Reachable B n nb classify s₀ s') (hi : L i = [])
    (hth : ∀ j, j ≠ i → s'.threads j = s.threads j) {l : Place t} (hown : s'.Owns i l) :
    st.Ok content f.mem (l.ptr B p) (s.content l) := by
  refine hM.free l (hown.real h hB hcl hr) fun j hl => ?_
  have hne : j ≠ i := by
    rintro rfl
    rw [hi] at hl
    cases hl
  have hother : s'.Owns j l := (hM.owns j l hl).congr (hth j hne)
  exact hne (hown.unique h hcl (hr.inv h hB hcl) hother)

include hp

/-- **What the threads use does not overlap.** -/
theorem Matches.disjoint (hM : Matches st content classify n p f s L)
    (hr : Reachable B n nb classify s₀ s) {j : Fin t} (hij : j ≠ i) {x : Loc Area}
    (hx : x ∈ spaceOf B p (L i)) : x ∉ spaceOf B p (L j) := by
  obtain ⟨l, hl, hx⟩ := hx
  rintro ⟨l', hl', hx'⟩
  refine Place.disjoint (n := n) hp ?_ ((hM.owns i l hl).real h hB hcl hr)
    ((hM.owns j l' hl').real h hB hcl hr) hx hx'
  rintro rfl
  exact hM.notMem h hB hcl hr hij hl hl'

/-- **A command is defined, and changes nothing for those who move whole blocks.** -/
theorem Matches.command (hM : Matches st content classify n p f s L)
    (hr : Reachable B n nb classify s₀ s) {o : Cmd Area α} {k : o.Ans → Act Area α Access}
    (hprog : (f.workers i).prog = .cmd o k) :
    S.foot o ⊆ spaceOf B p (L i) ∧ ∀ choice, ∃ a m', S.exec o choice f.mem = some (a, m') ∧
      S.AgreeOn (spaceOf B p (L i))ᶜ f.mem m' ∧
      Matches st content classify n p (f.answered i (k a) m') s L := by
  have hdoing := hM.doing i
  rw [hprog] at hdoing
  obtain ⟨hfoot, hexec⟩ := hdoing
  refine ⟨hfoot, fun choice => ?_⟩
  obtain ⟨a, m', he, hsat⟩ := hexec choice
  have hag : S.AgreeOn (spaceOf B p (L i))ᶜ f.mem m' := fun x hx =>
    S.exec_frame he fun hx' => hx (hfoot hx')
  have hother : ∀ j, j ≠ i → S.AgreeOn (spaceOf B p (L j)) f.mem m' := fun j hj =>
    hag.subset fun x hx hx' => hM.disjoint h hB hcl hp hr hj hx' hx
  have hself : (f.answered i (k a) m').workers i = { f.workers i with prog := k a } :=
    Function.update_self ..
  have hsame : ∀ j, j ≠ i → (f.answered i (k a) m').workers j = f.workers j := fun j hj =>
    Function.update_of_ne hj ..
  refine ⟨a, m', he, hag, hM.pointers, fun j => ?_, fun j => ?_, hM.owns, fun j => ?_,
    fun j hj => ?_, fun l hl hfree => ?_, fun j => ?_⟩
  · by_cases hj : j = i
    · subst hj
      rw [hself, ← hM.count]
    · rw [hsame j hj, hM.count]
  · by_cases hj : j = i
    · subst hj
      rw [hself, ← hM.readBucket]
    · rw [hsame j hj, hM.readBucket]
  · by_cases hj : j = i
    · subst hj
      rw [hself]
      exact hsat
    · rw [hsame j hj]
      exact (hM.doing j).env (hother j hj)
  · by_cases hji : j = i
    · subst hji
      obtain ⟨b, hb⟩ := hM.busy j hj
      rw [hprog] at hb
      cases hb
    · rw [hsame j hji]
      exact hM.busy j hj
  · refine (hM.free l hl hfree).congr (hag.subset fun x hx => ?_)
    rintro ⟨l', hl', hx'⟩
    refine Place.disjoint (n := n) hp ?_ hl ((hM.owns i l' hl').real h hB hcl hr) hx hx'
    rintro rfl
    exact hfree i hl'
  · by_cases hj : j = i
    · subst hj
      rw [hself, hM.overflow j, hprog]
      -- the program was not at its end, so the block has not been moved
      have hret : k a = .ret .overflowed → (s.threads j).pc ≠ .tryRead := by
        intro hka
        rw [hka] at hsat
        refine Moving.pc_ne hsat (fun hnil => ?_) rfl
        obtain ⟨b, hb⟩ := hM.busy j hnil
        rw [hprog] at hb
        cases hb
      constructor
      · rintro (hflag | ⟨hne, -⟩)
        · exact .inl hflag
        · cases hne
      · rintro (hflag | ⟨hka, hpc⟩)
        · exact .inl hflag
        · exact absurd hpc (hret hka)
    · rw [hsame j hj]
      exact hM.overflow j

omit hp in
/-- **A thread at the end of a program**: those who move whole blocks catch up. -/
theorem Matches.settle (hM : Matches st content classify n p f s L)
    (hr : Reachable B n nb classify s₀ s) {a : Access} (hprog : (f.workers i).prog = .ret a) :
    ∃ s', Reachable B n nb classify s s' ∧ (s'.threads i).pc = a.pc ∧
      Matches st content classify n p f s' (Function.update L i []) := by
  have hdoing := hM.doing i
  rw [hprog] at hdoing
  obtain ⟨vs, hplan, hL, hok⟩ := hdoing
  obtain ⟨s', hreach, hs⟩ := hplan.settle
  refine ⟨s', hreach, hs.pc, hM.pointers.trans hs.pointers.symm, fun j => ?_, fun j => ?_,
    fun j l hl => ?_, fun j => ?_, fun j hj => ?_, fun l hl hfree => ?_, fun j => ?_⟩
  · by_cases hj : j = i
    · subst hj
      rw [hM.count, hs.count]
    · rw [hM.count, hs.others j hj]
  · by_cases hj : j = i
    · subst hj
      rw [hM.readBucket, hs.readBucket]
    · rw [hM.readBucket, hs.others j hj]
  · by_cases hj : j = i
    · subst hj
      simp at hl
    · rw [Function.update_of_ne hj] at hl
      exact (hM.owns j l hl).congr (hs.others j hj)
  · by_cases hj : j = i
    · subst hj
      rw [Function.update_self, hprog]
      exact moving_ret hs.pc
    · rw [Function.update_of_ne hj]
      refine (hM.doing j).congr (hs.others j hj) fun q hq => ?_
      exact hs.same (.slot q) (hL ▸ hM.notMem h hB hcl hr (Ne.symm hj) hq)
  · by_cases hji : j = i
    · subst hji
      exact ⟨a, hprog⟩
    · rw [Function.update_of_ne hji] at hj
      exact hM.busy j hj
  · by_cases hmem : l ∈ vs.map Prod.fst
    · obtain ⟨e, he, rfl⟩ := List.mem_map.mp hmem
      rw [hs.made e he]
      exact hok e he
    · rw [hs.same l hmem]
      refine hM.free l hl fun j hj => ?_
      by_cases hji : j = i
      · subst hji
        exact hmem (hL ▸ hj)
      · have := hfree j
        rw [Function.update_of_ne hji] at this
        exact this hj
  · by_cases hj : j = i
    · subst hj
      rw [hs.overflow, hM.overflow j, hprog, hs.pc]
      constructor
      · rintro ((hflag | ⟨ha, -⟩) | ⟨rfl, -⟩)
        · exact .inl hflag
        · exact .inr ⟨ha, by rw [Prog.ret.inj ha]; rfl⟩
        · exact .inr ⟨rfl, rfl⟩
      · rintro (hflag | ⟨ha, -⟩)
        · exact .inl (.inl hflag)
        · obtain rfl := Prog.ret.inj ha
          by_cases hpc : (s.threads j).pc = .tryRead
          · exact .inl (.inr ⟨rfl, hpc⟩)
          · exact .inr ⟨rfl, hpc⟩
    · rw [hs.others j hj]
      exact hM.overflow j

omit h hB hcl [Fintype β] hp in
/-- A thread goes on, at the same time as the one that moves whole blocks. -/
theorem Matches.advance (hM : Matches st content classify n p f s L) (hi : L i = []) {w : Mover α}
    {th : Thread β} {Li : List (Place t)} (hmem : f'.mem = f.mem)
    (hptr : f'.pointers = s'.pointers) (hw : f'.workers = Function.update f.workers i w)
    (hth : s'.threads = Function.update s.threads i th) (hslot : s'.slot = s.slot)
    (hswap : th.swap = (s.threads i).swap) (hover : th.overflow = (s.threads i).overflow)
    (hcount : w.count = th.count) (hbucket : w.readBucket = th.readBucket)
    (howns : ∀ l ∈ Li, s'.Owns i l) (hdoing : Moving st content classify p i s' Li w.prog f.mem)
    (hbusy : Li = [] → ∃ a, w.prog = .ret a) (hflag : th.overflow.isSome ↔ w.overflow = true ∨
      w.prog = .ret .overflowed ∧ th.pc = .tryRead) :
    Matches st content classify n p f' s' (Function.update L i Li) := by
  have hsame : ∀ j, j ≠ i → s'.threads j = s.threads j := fun j hj => by
    rw [hth, Function.update_of_ne hj]
  have hsame' : ∀ j, j ≠ i → f'.workers j = f.workers j := fun j hj => by
    rw [hw, Function.update_of_ne hj]
  have hself : s'.threads i = th := by rw [hth, Function.update_self]
  have hself' : f'.workers i = w := by rw [hw, Function.update_self]
  refine ⟨hptr, fun j => ?_, fun j => ?_, fun j l hl => ?_, fun j => ?_, fun j hj => ?_,
    fun l hl hfree => ?_, fun j => ?_⟩
  · by_cases hj : j = i
    · subst hj
      rw [hself, hself', hcount]
    · rw [hsame j hj, hsame' j hj, hM.count]
  · by_cases hj : j = i
    · subst hj
      rw [hself, hself', hbucket]
    · rw [hsame j hj, hsame' j hj, hM.readBucket]
  · by_cases hj : j = i
    · subst hj
      rw [Function.update_self] at hl
      exact howns l hl
    · rw [Function.update_of_ne hj] at hl
      exact (hM.owns j l hl).congr (hsame j hj)
  · by_cases hj : j = i
    · subst hj
      rw [Function.update_self, hself', hmem]
      exact hdoing
    · rw [Function.update_of_ne hj, hsame' j hj, hmem]
      exact (hM.doing j).congr (hsame j hj) fun q _ => congrFun hslot q
  · by_cases hji : j = i
    · subst hji
      rw [Function.update_self] at hj
      rw [hself']
      exact hbusy hj
    · rw [Function.update_of_ne hji] at hj
      rw [hsame' j hji]
      exact hM.busy j hj
  · have hcontent : s'.content l = s.content l := by
      rw [content_of_update hth]
      cases l with
      | slot q => exact congrFun hslot q
      | swap j c =>
        by_cases hj : j = i
        · subst hj
          simp [hswap, Permuting.content]
        · simp [hj, Permuting.content]
      | overflow j =>
        by_cases hj : j = i
        · subst hj
          simp [hover, Permuting.content]
        · simp [hj, Permuting.content]
    rw [hcontent, hmem]
    refine hM.free l hl fun j hj => ?_
    by_cases hji : j = i
    · subst hji
      rw [hi] at hj
      cases hj
    · have := hfree j
      rw [Function.update_of_ne hji] at this
      exact this hj
  · by_cases hj : j = i
    · subst hj
      rw [hself, hself']
      exact hflag
    · rw [hsame j hj, hsame' j hj]
      exact hM.overflow j

end

end Ps4o.InPlace
