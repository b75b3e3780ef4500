import Ps4o.InPlace.BlockMatching

/-!
# Matching the accesses to the pointers

Each access of a thread to the pointers of a bucket is one step of the permutation that moves whole
blocks. It begins with the program that the thread runs next.

## What is proved

* `Matches.access_decRead`, `Matches.access_incWrite` and their siblings — each access is matched.
* `Matches.access` — so is whatever access a thread makes.
-/

namespace Ps4o.InPlace

open Ps4o.Program Ps4o.Storage Ps4o.Order

variable {α : Type}

/-! ### The accesses -/

section
variable {σ β : Type} [Fintype β] {S : Semantics (Cmd Area α) Cmd.Ans σ (Loc Area)} {init : Bool}
  {B t n nb : ℕ} {bss full : ℕ → ℕ} {classify : Option β → ℕ} {s₀ s : Permuting t β}
  {st : BlockStore S init B} {content : β → List α} {p : Ptr Area} {f f' : Working t α σ}
  {L : Fin t → List (Place t)} {i : Fin t} {comp : α → α → Bool} {eq : Bool} {c : Classifier α}
  (h : Boundaries false nb n bss) (hB : 1 ≤ B) (hcl : Classified B n nb bss full classify s₀)
  (hp : p.arr = .input)
  (hhead : ∀ x, ∃ a l, content x = a :: l ∧ c.classify comp eq a = some (classify (some x)))
include h hB hcl

omit h hB hcl [Fintype β] in
/-- An access after which the thread makes another one. -/
theorem Matches.advance_ret (hM : Matches st content classify n p f s L) (hi : L i = [])
    {s' : Permuting t β} {w : Mover α} {th : Thread β} (a : Access) (hmem : f'.mem = f.mem)
    (hptr : f'.pointers = s'.pointers) (hw : f'.workers = Function.update f.workers i w)
    (hth : s'.threads = Function.update s.threads i th) (hslot : s'.slot = s.slot)
    (hswap : th.swap = (s.threads i).swap) (hover : th.overflow = (s.threads i).overflow)
    (hcount : w.count = th.count) (hbucket : w.readBucket = th.readBucket)
    (hprog : w.prog = .ret a) (hpc : th.pc = a.pc) (ha : a ≠ .overflowed)
    (hflag : th.overflow.isSome ↔ w.overflow = true) :
    Matches st content classify n p f' s' (Function.update L i []) := by
  refine hM.advance hi hmem hptr hw hth hslot hswap hover hcount hbucket nofun ?_
    (fun _ => ⟨a, hprog⟩) ?_
  · rw [hprog]
    exact moving_ret (by rw [hth, Function.update_self, hpc])
  · rw [hflag, hprog]
    simp [ha]

omit h hB hcl [Fintype β] in
/-- Whether `overflow_` is set, when the thread is not about to set it. -/
theorem Matches.flag (hM : Matches st content classify n p f s L) {a : Access}
    (hprog : (f.workers i).prog = .ret a) (ha : a ≠ .overflowed) :
    (s.threads i).overflow.isSome ↔ (f.workers i).overflow = true := by
  rw [hM.overflow i, hprog]
  simp [ha]

omit h hB hcl [Fintype β] in
theorem Matches.access_tryRead (hM : Matches st content classify n p f s L) (hi : L i = [])
    (hprog : (f.workers i).prog = .ret .tryRead) (hpc : (s.threads i).pc = .tryRead) :
    Matches st content classify n p (f.access comp init B eq c p n nb i .tryRead)
      (step B n nb classify i s) (Function.update L i []) := by
  simp only [step, hpc]
  refine hM.advance_ret hi .decRead rfl ?_ rfl rfl rfl rfl rfl (hM.count i) (hM.readBucket i) rfl
    rfl (by simp) (hM.flag hprog (by simp))
  simp only [Working.access, Working.set, Permuting.set, hM.pointers, hM.readBucket]

omit h hB hcl [Fintype β] in
theorem Matches.access_noBlock (hM : Matches st content classify n p f s L) (hi : L i = [])
    (hprog : (f.workers i).prog = .ret .noBlock) (hpc : (s.threads i).pc = .noBlock) :
    Matches st content classify n p (f.access comp init B eq c p n nb i .noBlock)
      (step B n nb classify i s) (Function.update L i []) := by
  simp only [step, hpc]
  refine hM.advance_ret hi (nextBucket ((f.workers i).count - 1)) rfl ?_ rfl rfl rfl rfl rfl ?_ ?_
    rfl ?_ ?_ (hM.flag hprog (by simp))
  · simp only [Working.access, Working.set, Permuting.set, hM.pointers, hM.readBucket]
  · simp only [hM.count]
  · simp only [hM.readBucket]
  · simp only [nextBucket_pc, hM.count]
  · unfold nextBucket
    split <;> simp

/-- **A thread begins to move a block**: it finds what is to be there in the places that it owns. -/
theorem Matches.begin (hM : Matches st content classify n p f s L) {s' : Permuting t β}
    (hr : Reachable B n nb classify s₀ s') (hi : L i = []) {prog : Act Area α Access} {pc : Pc}
    {Li : List (Place t)} (hmem : f'.mem = f.mem) (hptr : f'.pointers = s'.pointers)
    (hw : f'.workers = Function.update f.workers i { f.workers i with prog := prog })
    (hth : s'.threads = Function.update s.threads i { s.threads i with pc := pc })
    (hslot : s'.slot = s.slot) (howns : ∀ l ∈ Li, s'.Owns i l) (hLi : Li ≠ [])
    (hflag : (s.threads i).overflow.isSome ↔ (f.workers i).overflow = true)
    (hdoing : (∀ l, s'.Owns i l → st.Ok content f.mem (l.ptr B p) (s'.content l)) →
      Moving st content classify p i s' Li prog f.mem) :
    Matches st content classify n p f' s' (Function.update L i Li) := by
  have hsame : ∀ j, j ≠ i → s'.threads j = s.threads j := fun j hj => by
    rw [hth, Function.update_of_ne hj]
  have hcontent : ∀ l, s'.content l = s.content l := by
    intro l
    rw [content_of_update hth]
    cases l with
    | slot q => exact congrFun hslot q
    | swap j c =>
      by_cases hj : j = i
      · subst hj
        simp [Permuting.content]
      · simp [hj, Permuting.content]
    | overflow j =>
      by_cases hj : j = i
      · subst hj
        simp [Permuting.content]
      · simp [hj, Permuting.content]
  have hbegun : Moving st content classify p i s' Li prog f.mem := by
    refine hdoing fun l hown => ?_
    rw [hcontent]
    exact hM.ok_of_owns h hB hcl hr hi hsame hown
  refine hM.advance hi hmem hptr hw hth hslot rfl rfl (hM.count i) (hM.readBucket i) howns hbegun
    (fun hnil => absurd hnil hLi) (hflag.trans ⟨.inl, ?_⟩)
  rintro (hset | ⟨rfl, hpc⟩)
  · exact hset
  · have hne := hbegun.pc_ne hLi rfl
    rw [hth, Function.update_self] at hne
    exact absurd hpc hne

section
variable (hM : Matches st content classify n p f s L) (hr : Reachable B n nb classify s₀ s)
  (hi : L i = [])
include hM hr hi hp

/-- The thread begins to read a block, when there is one. -/
theorem Matches.access_decRead (hprog : (f.workers i).prog = .ret .decRead)
    (hpc : (s.threads i).pc = .decRead) : ∃ L',
    Matches st content classify n p (f.access comp init B eq c p n nb i .decRead)
      (step B n nb classify i s) L' := by
  have hflag := hM.flag hprog (by simp)
  have hr' := hr.step i
  have hempty : ∀ b, (s.threads i).swap b = none := by
    have hok := (hr.inv h hB hcl).threads i
    unfold Thread.Ok at hok
    rwa [hpc] at hok
  set bp := s.pointers (s.threads i).readBucket with hbp
  have hptr : (f.access comp init B eq c p n nb i .decRead).pointers =
      (step B n nb classify i s).pointers := by
    simp only [step, hpc, Working.access, Working.set, Permuting.set, hM.pointers, hM.readBucket]
  by_cases hlt : bp.read B < bp.w
  · have hstep : step B n nb classify i s = s.set (s.threads i).readBucket (bp.decRead B) i
        { s.threads i with pc := .noBlock } := by
      simp only [step, hpc, ← hbp, if_pos hlt]
    rw [hstep] at hptr ⊢
    refine ⟨_, hM.advance_ret hi .noBlock rfl hptr rfl rfl rfl rfl rfl (hM.count i)
      (hM.readBucket i) ?_ rfl (by simp) hflag⟩
    simp only [hM.pointers, hM.readBucket, ← hbp, if_pos hlt]
  · have hstep : step B n nb classify i s = s.set (s.threads i).readBucket (bp.decRead B) i
        { s.threads i with pc := .readBlock (bp.read B) } := by
      simp only [step, hpc, ← hbp, if_neg hlt]
    rw [hstep] at hptr hr' ⊢
    set s' := s.set (s.threads i).readBucket (bp.decRead B) i
      { s.threads i with pc := .readBlock (bp.read B) } with hs'
    have hth : s'.threads = Function.update s.threads i
      { s.threads i with pc := .readBlock (bp.read B) } := rfl
    have hpc' : (s'.threads i).pc = .readBlock (bp.read B) := by rw [hth, Function.update_self]
    have hclaims : s'.Claims (bp.read B) i .read := congrArg Pc.claim hpc'
    obtain ⟨b, hb, hin, hok⟩ := (hr'.inv h hB hcl).claimed h hcl hclaims
    obtain ⟨-, x, hx, -⟩ := hok.read hclaims
    have hslot : s'.Owns i (.slot (bp.read B)) := ⟨_, hclaims, .inl rfl⟩
    have hprog' : (if (f.pointers (f.workers i).readBucket).read B <
        (f.pointers (f.workers i).readBucket).w then (.ret .noBlock : Act Area α Access)
        else readBlock init B p i ((f.pointers (f.workers i).readBucket).read B)) =
        readBlock init B p i (bp.read B) := by
      simp only [hM.pointers, hM.readBucket, ← hbp, if_neg hlt]
    have howns : ∀ l ∈ [.slot (bp.read B), .swap i false], s'.Owns i l := by
      simp only [List.forall_mem_cons]
      exact ⟨hslot, rfl, by simp⟩
    refine ⟨_, hM.begin h hB hcl hr' hi rfl hptr rfl hth rfl howns (by simp) hflag fun hok' => ?_⟩
    have hfull := hok' _ hslot
    have hvacant := hok' (.swap i false) rfl
    rw [show s'.content (.slot (bp.read B)) = some x from hx] at hfull
    rw [show s'.content (.swap i false) = none by simp [content_of_update hth, hempty]] at hvacant
    rw [hprog']
    refine (sat_readBlock hp hfull hvacant).imp ?_
    rintro _ m' ⟨rfl, hall⟩
    exact ⟨_, .read (bp.read B) x hpc' hx, rfl, hall⟩

omit hp in
include hhead in
/-- The block that has been read is classified. -/
theorem Matches.access_stopRead (hprog : (f.workers i).prog = .ret .stopRead)
    (hpc : (s.threads i).pc = .stopRead) : ∃ L',
    Matches st content classify n p (f.access comp init B eq c p n nb i .stopRead)
      (step B n nb classify i s) L' := by
  have hflag := hM.flag hprog (by simp)
  have hr' := hr.step i
  have hok := (hr.inv h hB hcl).threads i
  unfold Thread.Ok at hok
  rw [hpc] at hok
  obtain ⟨⟨y, hy⟩, -⟩ := hok
  have hptr : (f.access comp init B eq c p n nb i .stopRead).pointers =
      (step B n nb classify i s).pointers := by
    simp only [step, hpc, Working.access, Working.set, Permuting.set, hM.pointers, hM.readBucket]
  have hth : (step B n nb classify i s).threads = Function.update s.threads i
      { s.threads i with pc := .incWrite (classify (some y)) false } := by
    simp only [step, hpc, hy, Permuting.set]
  have hslot : (step B n nb classify i s).slot = s.slot := by simp only [step, hpc, Permuting.set]
  set s' := step B n nb classify i s
  have hth' : s'.threads i = { s.threads i with pc := .incWrite (classify (some y)) false } := by
    rw [hth, Function.update_self]
  have howns : ∀ l ∈ [Place.swap i false], s'.Owns i l := List.forall_mem_singleton.mpr rfl
  refine ⟨_, hM.begin h hB hcl hr' hi rfl hptr rfl hth hslot howns (by simp) hflag fun hok' => ?_⟩
  have hfull := hok' (.swap i false) rfl
  rw [show s'.content (.swap i false) = some y by simp [content_of_update hth, hy]] at hfull
  refine (sat_classifyBlock hfull (hhead y)).imp ?_
  rintro _ m' ⟨rfl, hall⟩
  exact ⟨_, .classify y (by rw [hth']) (by rw [hth', hy]), rfl, hall⟩

/-- The thread waits no longer when nobody is reading, and begins to write the block. -/
theorem Matches.access_isReading {dest : ℕ} {current : Bool} {write : ℤ}
    (hprog : (f.workers i).prog = .ret (.isReading dest current write))
    (hpc : (s.threads i).pc = .isReading dest current write) : ∃ L',
    Matches st content classify n p
      (f.access comp init B eq c p n nb i (.isReading dest current write))
      (step B n nb classify i s) L' := by
  have hflag := hM.flag hprog (by simp)
  have hr' := hr.step i
  have hok := (hr.inv h hB hcl).threads i
  unfold Thread.Ok at hok
  rw [hpc] at hok
  obtain ⟨⟨y, hy, -⟩, -⟩ := hok
  by_cases hread : (s.pointers dest).isReading
  · have hstep : step B n nb classify i s = s := by simp only [step, hpc, if_pos hread]
    have haccess : f.access comp init B eq c p n nb i (.isReading dest current write) = f := by
      simp only [Working.access, hM.pointers, if_pos hread]
    rw [hstep, haccess]
    exact ⟨L, hM⟩
  · have hstep : step B n nb classify i s = s.continue i
        { s.threads i with pc := .writeBlock dest current write } := by
      simp only [step, hpc, if_neg hread]
    have haccess : f.access comp init B eq c p n nb i (.isReading dest current write) =
        f.continue i { f.workers i with prog := writeBlock init B p i current write } := by
      simp only [Working.access, hM.pointers, if_neg hread]
    rw [haccess]
    rw [hstep] at hr' ⊢
    set s' := s.continue i { s.threads i with pc := .writeBlock dest current write }
    have hth : s'.threads = Function.update s.threads i
      { s.threads i with pc := .writeBlock dest current write } := rfl
    have hth' : s'.threads i = { s.threads i with pc := .writeBlock dest current write } := by
      rw [hth, Function.update_self]
    have hclaims : s'.Claims write i .fill := by
      rw [Permuting.Claims, hth']
      rfl
    obtain ⟨b, hb, hin, hslotOk⟩ := (hr'.inv h hB hcl).claimed h hcl hclaims
    obtain ⟨-, -, hnone, -⟩ := hslotOk.fill hclaims
    have hslot : s'.Owns i (.slot write) := ⟨_, hclaims, .inr (.inr rfl)⟩
    have howns : ∀ l ∈ [.swap i current, .slot write], s'.Owns i l := by
      simp only [List.forall_mem_cons]
      exact ⟨rfl, hslot, by simp⟩
    refine ⟨_, hM.begin h hB hcl hr' hi rfl hM.pointers rfl hth rfl howns (by simp) hflag
      fun hok' => ?_⟩
    have hvacant := hok' _ hslot
    have hfull := hok' (.swap i current) rfl
    rw [show s'.content (.slot write) = none from hnone] at hvacant
    rw [show s'.content (.swap i current) = some y by simp [content_of_update hth, hy]] at hfull
    refine (sat_writeBlock hp hfull hvacant).imp ?_
    rintro _ m' ⟨rfl, hall⟩
    exact ⟨_, .write dest current write y (by rw [hth']) (by rw [hth', hy]), rfl, hall⟩

include hhead in
/-- The thread begins to write the block, or to look at the block that is in its way. -/
theorem Matches.access_incWrite {dest : ℕ} {current : Bool}
    (hprog : (f.workers i).prog = .ret (.incWrite dest current))
    (hpc : (s.threads i).pc = .incWrite dest current) : ∃ L',
    Matches st content classify n p (f.access comp init B eq c p n nb i (.incWrite dest current))
      (step B n nb classify i s) L' := by
  have hflag := hM.flag hprog (by simp)
  have hr' := hr.step i
  have hok := (hr.inv h hB hcl).threads i
  unfold Thread.Ok at hok
  rw [hpc] at hok
  obtain ⟨⟨y, hy, -⟩, hnone⟩ := hok
  have hptr : (f.access comp init B eq c p n nb i (.incWrite dest current)).pointers =
      (step B n nb classify i s).pointers := by
    simp only [step, hpc, Working.access, Working.set, Permuting.set, hM.pointers]
  set bp := s.pointers dest with hbp
  by_cases hlt : bp.r < bp.w
  · by_cases hmax : maxOff B n ≤ bp.w
    · -- the block does not fit
      have hstep : step B n nb classify i s = s.set dest (bp.incWrite B) i
          { s.threads i with pc := .writeOverflow dest current bp.w } := by
        simp only [step, hpc, ← hbp, if_pos hlt, if_pos hmax]
      rw [hstep] at hr' hptr ⊢
      set s' := s.set dest (bp.incWrite B) i
        { s.threads i with pc := .writeOverflow dest current bp.w }
      have hth : s'.threads = Function.update s.threads i
        { s.threads i with pc := .writeOverflow dest current bp.w } := rfl
      have hth' : s'.threads i = { s.threads i with pc := .writeOverflow dest current bp.w } := by
        rw [hth, Function.update_self]
      have hclaims : s'.Claims bp.w i .spill := by
        rw [Permuting.Claims, hth']
        rfl
      have hover := ((hr'.inv h hB hcl).overflow_of_spill h hB hcl hclaims).2 i
      have howns : ∀ l ∈ [Place.swap i current, .overflow i], s'.Owns i l := by
        simp only [List.forall_mem_cons]
        exact ⟨rfl, rfl, by simp⟩
      have hw : (f.access comp init B eq c p n nb i (.incWrite dest current)).workers =
          Function.update f.workers i
            { f.workers i with prog := writeOverflow init B i current } := by
        simp only [Working.access, Working.set, hM.pointers, ← hbp, if_pos hlt, if_pos hmax]
      refine ⟨_, hM.begin h hB hcl hr' hi rfl hptr hw hth rfl howns (by simp) hflag fun hok' => ?_⟩
      have hfull := hok' (.swap i current) rfl
      have hvacant := hok' (.overflow i) rfl
      rw [show s'.content (.swap i current) = some y by simp [content_of_update hth, hy]] at hfull
      rw [show s'.content (.overflow i) = none from hover] at hvacant
      refine (sat_writeOverflow hfull hvacant).imp ?_
      rintro _ m' ⟨rfl, hall⟩
      exact ⟨_, .overflow dest current bp.w y (by rw [hth']) (by rw [hth', hy]), rfl, hall⟩
    · -- the thread waits until nobody reads
      have hstep : step B n nb classify i s = s.set dest (bp.incWrite B) i
          { s.threads i with pc := .isReading dest current bp.w } := by
        simp only [step, hpc, ← hbp, if_pos hlt, if_neg hmax]
      rw [hstep] at hptr ⊢
      refine ⟨_, hM.advance_ret hi (.isReading dest current bp.w) rfl hptr rfl rfl rfl rfl rfl
        (hM.count i) (hM.readBucket i) ?_ rfl (by simp) hflag⟩
      simp only [hM.pointers, ← hbp, if_pos hlt, if_neg hmax]
  · have hstep : step B n nb classify i s = s.set dest (bp.incWrite B) i
        { s.threads i with pc := .classify dest current bp.w } := by
      simp only [step, hpc, ← hbp, if_neg hlt]
    rw [hstep] at hr' hptr ⊢
    set s' := s.set dest (bp.incWrite B) i { s.threads i with pc := .classify dest current bp.w }
    have hth : s'.threads = Function.update s.threads i
      { s.threads i with pc := .classify dest current bp.w } := rfl
    have hth' : s'.threads i = { s.threads i with pc := .classify dest current bp.w } := by
      rw [hth, Function.update_self]
    have hclaims : s'.Claims bp.w i .hold := by
      rw [Permuting.Claims, hth']
      rfl
    obtain ⟨b, hb, hin, hslotOk⟩ := (hr'.inv h hB hcl).claimed h hcl hclaims
    obtain ⟨-, ⟨x, hx, -⟩, -⟩ := hslotOk.hold hclaims
    have hslot : s'.Owns i (.slot bp.w) := ⟨_, hclaims, .inr (.inl rfl)⟩
    have howns : ∀ l ∈ [.slot bp.w, .swap i current, .swap i !current], s'.Owns i l := by
      simp only [List.forall_mem_cons]
      exact ⟨hslot, rfl, rfl, by simp⟩
    have hw : (f.access comp init B eq c p n nb i (.incWrite dest current)).workers =
        Function.update f.workers i
          { f.workers i with prog := swapBlocks comp init B eq c p i dest current bp.w } := by
      simp only [Working.access, Working.set, hM.pointers, ← hbp, if_neg hlt]
    refine ⟨_, hM.begin h hB hcl hr' hi rfl hptr hw hth rfl howns (by simp) hflag fun hok' => ?_⟩
    have hfull := hok' _ hslot
    have hother := hok' (.swap i current) rfl
    have hvacant := hok' (.swap i !current) rfl
    rw [show s'.content (.slot bp.w) = some x from hx] at hfull
    rw [show s'.content (.swap i current) = some y by simp [content_of_update hth, hy]] at hother
    rw [show s'.content (.swap i !current) = none by
      simp [content_of_update hth, hnone]] at hvacant
    refine (sat_swapBlocks hp hfull hother hvacant (hhead x)).imp ?_
    rintro a m' (⟨hd, rfl, hall⟩ | ⟨hd, rfl, hall⟩)
    · exact ⟨_, .keep dest current bp.w x y (by rw [hth']) hx (by rw [hth', hy])
        (by rw [hth', hnone]) hd, rfl, hall⟩
    · exact ⟨_, .exchange dest current bp.w x y (by rw [hth']) hx (by rw [hth', hy]) hd, rfl, hall⟩

omit h hB hcl hp hr [Fintype β] in
/-- The thread sets `overflow_`. -/
theorem Matches.access_overflowed (hprog : (f.workers i).prog = .ret .overflowed)
    (hpc : (s.threads i).pc = .tryRead) :
    Matches st content classify n p (f.access comp init B eq c p n nb i .overflowed) s
      (Function.update L i []) := by
  have hset : (s.threads i).overflow.isSome := (hM.overflow i).mpr (.inr ⟨hprog, hpc⟩)
  refine hM.advance_ret hi .tryRead rfl hM.pointers rfl (Function.update_eq_self i s.threads).symm
    rfl rfl rfl (hM.count i) (hM.readBucket i) rfl hpc (by simp) ?_
  simpa using hset

include hhead in
/-- **An access** is a step of the thread that moves whole blocks, unless it sets `overflow_`. -/
theorem Matches.access_step {a : Access} (hprog : (f.workers i).prog = .ret a)
    (hpc : (s.threads i).pc = a.pc) (ha : a ≠ .overflowed) :
    ∃ L', Matches st content classify n p (f.access comp init B eq c p n nb i a)
      (InPlace.step B n nb classify i s) L' := by
  cases a with
  | tryRead => exact ⟨_, hM.access_tryRead hi hprog hpc⟩
  | decRead => exact hM.access_decRead h hB hcl hp hr hi hprog hpc
  | noBlock => exact ⟨_, hM.access_noBlock hi hprog hpc⟩
  | stopRead => exact hM.access_stopRead h hB hcl hhead hr hi hprog hpc
  | incWrite dest current => exact hM.access_incWrite h hB hcl hp hhead hr hi hprog hpc
  | isReading dest current write => exact hM.access_isReading h hB hcl hp hr hi hprog hpc
  | overflowed => exact absurd rfl ha
  | finished =>
    have hstep : InPlace.step B n nb classify i s = s := by simp only [InPlace.step, hpc, Access.pc]
    rw [hstep]
    exact ⟨L, hM⟩

include hhead in
/-- **An access** is a step of the thread that moves whole blocks, or none. -/
theorem Matches.access {a : Access} (hprog : (f.workers i).prog = .ret a)
    (hpc : (s.threads i).pc = a.pc) : ∃ s' L', Reachable B n nb classify s s' ∧
    Matches st content classify n p (f.access comp init B eq c p n nb i a) s' L' := by
  by_cases ha : a = .overflowed
  · subst ha
    exact ⟨s, _, .start, hM.access_overflowed hi hprog hpc⟩
  · obtain ⟨L', hM'⟩ := hM.access_step h hB hcl hp hhead hr hi hprog hpc ha
    exact ⟨_, L', .step i .start, hM'⟩

end

end

end Ps4o.InPlace
