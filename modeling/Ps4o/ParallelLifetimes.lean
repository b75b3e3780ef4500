import Ps4o.Lifetimes
import Ps4o.ParallelPartition

/-!
# Lifetimes in the parallel partitioning

After distributing, the input array has no objects left, and everything that is put back has to be
constructed there. Whole buckets are; but what a thread shares of an equality bucket is assigned,
and an equality bucket that two threads do is put back twice.

## What is proved

* `sat_steps` — steps that are about different positions, and none of which shares anything, respect
  the lifetimes.
* `pairwise_threadOps` — such are the steps of a thread that shares nothing.
* `lifetimes_iff` — the threads respect the lifetimes, whatever the schedule, just when every
  equality bucket lies, with the beginning of the bucket before it, in one stripe and apart from its
  edges.
-/

namespace Ps4o

open Ps4o.Program Ps4o.Storage Ps4o.Order Ps4o.Order.Stripes

variable {A α : Type}

/-! ### Which positions a step is about -/

/-- A step touches the slots of a position. -/
def PostOp.Touches (bss : ℕ → ℕ) (x : ℕ) : PostOp → Prop
  | .sortAndMove b | .move b => bss b ≤ x ∧ x < bss (b + 1)
  | .share lo hi => lo ≤ x ∧ x < hi

/-- On the last level, everything that is touched is transferred. -/
theorem PostOp.transfers_iff (cfg : Config) {bss : ℕ → ℕ} {x : ℕ} {op : PostOp} :
    op.transfers cfg true bss x = true ↔ op.Touches bss x := by
  cases op <;> simp [PostOp.transfers, PostOp.Touches]

/-- Two steps are about different positions. -/
def Separate (bss : ℕ → ℕ) (op op' : PostOp) : Prop := ∀ x, op.Touches bss x → ¬ op'.Touches bss x

/-- Steps that all together touch no position twice are separate. -/
theorem pairwise_of_countP (cfg : Config) {bss : ℕ → ℕ} {ops : List PostOp}
    (h : ∀ x, ops.countP (·.transfers cfg true bss x) ≤ 1) : ops.Pairwise (Separate bss) := by
  induction ops with
  | nil => exact .nil
  | cons op ops ih =>
    have hle : ∀ x, ops.countP (·.transfers cfg true bss x) ≤ 1 := fun x =>
      le_trans (by rw [List.countP_cons]; omega) (h x)
    refine List.pairwise_cons.mpr ⟨fun op' hop' x hx hx' => ?_, ih hle⟩
    have hone := h x
    rw [List.countP_cons, if_pos ((PostOp.transfers_iff cfg).mpr hx)] at hone
    have : 0 < ops.countP (·.transfers cfg true bss x) :=
      List.countP_pos_iff.mpr ⟨op', hop', (PostOp.transfers_iff cfg).mpr hx'⟩
    omega

/-- Separate steps all together touch no position twice. -/
theorem countP_of_pairwise (cfg : Config) {bss : ℕ → ℕ} {ops : List PostOp}
    (h : ops.Pairwise (Separate bss)) (x : ℕ) : ops.countP (·.transfers cfg true bss x) ≤ 1 := by
  induction h with
  | nil => exact Nat.zero_le 1
  | cons hsep _ ih =>
    rw [List.countP_cons]
    split
    · next hx =>
      rw [List.countP_eq_zero.mpr fun op' hop' hx' =>
        hsep op' hop' x ((PostOp.transfers_iff cfg).mp hx) ((PostOp.transfers_iff cfg).mp hx')]
    · exact ih

section
variable {eq : Bool} {nb n t : ℕ} {bss : ℕ → ℕ}

/-- Every equality bucket that is not empty lies in one stripe, apart from its edges, and the bucket
before it begins there. -/
def InOneStripe (eq : Bool) (nb n t : ℕ) (bss : ℕ → ℕ) : Prop :=
  ∀ e, eq = true → IsEqual nb e → bss e < bss (e + 1) →
    ∃ i, first n t i ≤ bss (e - 1) ∧ first n t i < bss e ∧ bss (e + 1) < first n t (i + 1)

/-- A step shares a part of an equality bucket. -/
def PostOp.Shares (op : PostOp) : Prop := ∃ lo hi, op = .share lo hi

variable (h : Boundaries eq nb n bss)
include h

variable (ht : 1 ≤ t)
include ht

/-- A position that no thread shares. -/
theorem not_shared {e x : ℕ} (heq : eq = true) (he : IsEqual nb e) (hx₁ : bss e ≤ x)
    (hx₂ : x < bss (e + 1)) {i : ℕ} (hno : ∀ op ∈ threadOps eq nb n t bss i, ¬ op.Shares) :
    ¬ (first n t i ≤ x ∧ x < first n t (i + 1) ∧
      (bss e ≤ first n t i ∨ first n t (i + 1) ≤ bss (e + 1))) := by
  subst heq
  have hzero : (threadOps true nb n t bss i).countP (·.shares x) = 0 :=
      List.countP_eq_zero.mpr fun op hop hsh => by
    cases op with
    | share lo hi => exact hno _ hop ⟨lo, hi, rfl⟩
    | sortAndMove b => cases hsh
    | move b => cases hsh
  rw [threadOps, if_pos rfl, countP_shares h ht he hx₁ hx₂] at hzero
  exact fun hc => by rw [if_pos hc] at hzero; exact absurd hzero Nat.one_ne_zero

/-- A thread touches a position of a bucket that is not an equality bucket at most once. -/
theorem countP_thread_other (cfg : Config) {c x i : ℕ} (hc : c < nb)
    (hne : ¬ (eq = true ∧ IsEqual nb c)) (hx₁ : bss c ≤ x) (hx₂ : x < bss (c + 1)) (hi : i < t) :
    (threadOps eq nb n t bss i).countP (·.transfers cfg true bss x) ≤ 1 := by
  have hone := countP_postOps_other h ht cfg true hc hne hx₁ hx₂
  rw [if_pos (.inl rfl), postOps, List.countP_flatMap] at hone
  rw [← hone]
  exact List.single_le_sum (fun _ _ => Nat.zero_le _) _
    (List.mem_map.mpr ⟨i, List.mem_range.mpr hi, rfl⟩)

/-- What is touched lies in the range. -/
theorem lt_of_touches {i x : ℕ} {op : PostOp} (hop : op ∈ threadOps eq nb n t bss i)
    (hx : op.Touches bss x) : x < n := by
  rcases mem_threadOps h ht hop with ⟨c, hc, -, rfl⟩ | ⟨e, he, rfl⟩ | ⟨e,
    lo, hi, he, rfl, -, hhi, -, -⟩
  · exact hx.2.trans_le (h.end_le hc)
  · exact hx.2.trans_le (h.end_le he.2.lt)
  · exact hx.2.trans_le (hhi.trans (h.end_le he.2.lt))

/-- Every position is touched. -/
theorem exists_touches {x : ℕ} (hx : x < n) :
    ∃ i < t, ∃ op ∈ threadOps eq nb n t bss i, op.Touches bss x := by
  obtain ⟨b, hb, hb₁, hb₂⟩ := h.exists_bucket hx
  have hpos : 0 < (postOps eq nb n t bss).countP (·.transfers defaultConfig true bss x) := by
    by_cases he : eq = true ∧ IsEqual nb b
    · obtain ⟨rfl, he⟩ := he
      rw [countP_postOps h ht defaultConfig true he hb₁ hb₂]
      omega
    · rw [countP_postOps_other h ht defaultConfig true hb he hb₁ hb₂, if_pos (.inl rfl)]
      exact Nat.one_pos
  obtain ⟨op, hop, htr⟩ := List.countP_pos_iff.mp hpos
  obtain ⟨i, hi, hop⟩ := List.mem_flatMap.mp hop
  exact ⟨i, List.mem_range.mp hi, op, hop, (PostOp.transfers_iff defaultConfig).mp htr⟩

/-- **A thread that shares nothing touches no position twice.** -/
theorem pairwise_threadOps {i : ℕ} (hi : i < t)
    (hno : ∀ op ∈ threadOps eq nb n t bss i, ¬ op.Shares) :
    (threadOps eq nb n t bss i).Pairwise (Separate bss) := by
  refine pairwise_of_countP defaultConfig fun x => ?_
  rcases Nat.lt_or_ge x n with hx | hx
  · obtain ⟨b, hb, hb₁, hb₂⟩ := h.exists_bucket hx
    by_cases he : eq = true ∧ IsEqual nb b
    · have hshare := not_shared h ht he.1 he.2 hb₁ hb₂ hno
      obtain ⟨rfl, he⟩ := he
      rw [threadOps, if_pos rfl, countP_equalBranch h ht defaultConfig true he hb₁ hb₂]
      by_cases htwice : DoneTwice n t bss i b
      · obtain ⟨-, -, h₃, -⟩ := htwice
        rw [if_neg (by omega)]
        split_ifs <;> omega
      · rw [if_neg htwice]
        split_ifs <;> omega
    · exact countP_thread_other h ht defaultConfig hb he hb₁ hb₂ hi
  · refine le_of_eq_of_le (List.countP_eq_zero.mpr fun op hop htr => ?_) (Nat.zero_le 1)
    have := lt_of_touches h ht hop ((PostOp.transfers_iff defaultConfig).mp htr)
    omega

/-- A thread that shares anything does so first. -/
theorem exists_share_first {i : ℕ} {op : PostOp} (hop : op ∈ threadOps eq nb n t bss i)
    (hsh : op.Shares) : ∃ lo hi rest, threadOps eq nb n t bss i = .share lo hi :: rest := by
  obtain ⟨lo, hi, rfl⟩ := hsh
  cases eq with
  | false =>
    obtain ⟨j, -, hj⟩ := mem_singles hop
    cases hj
  | true =>
    rw [threadOps, if_pos rfl] at hop ⊢
    rcases equalBranch_cases h ht i with ⟨f, l, hs, heq⟩ | ⟨-, -, heq⟩
    · rw [heq] at hop ⊢
      simp only [stripeOps] at hop ⊢
      by_cases hf : IsEqual nb f
      · rw [if_pos hf]
        exact ⟨_, _, _, rfl⟩
      by_cases hl : firstOwn nb bss (first n t i) f < l ∧ IsEqual nb (l - 1)
      · rw [if_neg hf, if_pos hl]
        exact ⟨_, _, _, rfl⟩
      rw [if_neg hf, if_neg hl] at hop
      simp only [List.nil_append] at hop
      split_ifs at hop with hlt
      · rcases mem_remaining h.even h.four hlt ((lastOwn_le _ _ _).trans hs.le)
          (fun heven => lastOwn_even h.even hs.le heven hlt) hop with ⟨c, -, -, hc⟩ | ⟨c, -, hc⟩
        · cases hc
        · cases hc
      · cases hop
    · rw [heq] at hop
      cases hop

omit h ht in
theorem Separate.symm {op op' : PostOp} (hsep : Separate bss op op') : Separate bss op' op :=
  fun x hx hx' => hsep x hx' hx

omit h ht in
/-- No position is touched twice when no thread does, and no two threads. -/
theorem pairwise_postOps_iff : (postOps eq nb n t bss).Pairwise (Separate bss) ↔
    (∀ i < t, (threadOps eq nb n t bss i).Pairwise (Separate bss)) ∧
      ∀ i < t, ∀ j < t, i ≠ j → ∀ op ∈ threadOps eq nb n t bss i, ∀ op' ∈ threadOps eq nb n t bss j,
        Separate bss op op' := by
  rw [postOps, List.pairwise_flatMap, List.pairwise_iff_getElem]
  simp only [List.mem_range, List.length_range, List.getElem_range]
  refine and_congr_right fun _ => ⟨fun hlt i hi j hj hij op hop op' hop' => ?_,
    fun hne i j hi hj hij => ?_⟩
  · rcases Nat.lt_or_gt_of_ne hij with hij | hij
    · exact hlt i j hi hj hij op hop op' hop'
    · exact (hlt j i hj hi hij op' hop' op hop).symm
  · exact hne i hi j hj hij.ne

/-- Equality buckets that lie as they should are not shared, and no thread does one twice. -/
theorem InOneStripe.not_doneTwice (hin : InOneStripe eq nb n t bss) {e i : ℕ} (heq : eq = true)
    (he : IsEqual nb e) (hpos : bss e < bss (e + 1)) : ¬ DoneTwice n t bss i e := by
  rintro ⟨h₁, h₂, h₃, -⟩
  obtain ⟨j, hj₁, -, hj₃⟩ := hin e heq he hpos
  have hstep := h.step (e - 1) (by omega)
  have hend := h.end_le he.lt
  rw [Nat.sub_add_cancel (by omega)] at hstep
  have hx : bss (e - 1) < n := by omega
  obtain rfl := ((mem_iff ht hx).mp ⟨h₁, h₂⟩).symm.trans ((mem_iff ht hx).mp ⟨hj₁, by omega⟩)
  omega

/-- **No step shares anything, and no two steps are about the same position, just when the equality
buckets lie as they should.** -/
theorem inOneStripe_iff : InOneStripe eq nb n t bss ↔
    (∀ op ∈ postOps eq nb n t bss, ¬ op.Shares) ∧
    (postOps eq nb n t bss).Pairwise (Separate bss) := by
  constructor
  · intro hin
    refine ⟨?_, pairwise_of_countP defaultConfig fun x => ?_⟩
    · rintro op hop ⟨lo, hi, rfl⟩
      obtain ⟨i, -, hop'⟩ := List.mem_flatMap.mp hop
      rcases mem_threadOps h ht hop' with ⟨c, -, -, hc⟩ | ⟨e, -, he⟩ | ⟨e, lo', hi',
        ⟨rfl, he⟩, heq, hlo, hhi, -, -⟩
      · cases hc
      · cases he
      · obtain ⟨rfl, rfl⟩ := PostOp.share.inj heq
        have hlt : lo < hi := lt_of_share h ht hop'
        obtain ⟨j, -, hj₁, hj₂⟩ := hin e rfl he (by omega)
        have hzero := (countP_shares_eq_zero_iff h ht he (by omega)).mpr
          ⟨j, hj₁, hj₂⟩ lo hlo (by omega)
        exact List.countP_eq_zero.mp hzero _ hop (decide_eq_true ⟨le_rfl, hlt⟩)
    · rcases Nat.lt_or_ge x n with hx | hx
      · obtain ⟨b, hb, hb₁, hb₂⟩ := h.exists_bucket hx
        by_cases he : eq = true ∧ IsEqual nb b
        · have hnot : ∀ i < t, ¬ DoneTwice n t bss i b :=
            fun i _ => hin.not_doneTwice h ht he.1 he.2 (by omega)
          obtain ⟨rfl, he⟩ := he
          rw [countP_postOps h ht defaultConfig true he hb₁ hb₂, sum_doneTwice_eq_zero_iff.mpr hnot]
        · rw [countP_postOps_other h ht defaultConfig true hb he hb₁ hb₂, if_pos (.inl rfl)]
      · refine le_of_eq_of_le (List.countP_eq_zero.mpr fun op hop htr => ?_) (Nat.zero_le 1)
        obtain ⟨i, -, hop⟩ := List.mem_flatMap.mp hop
        have := lt_of_touches h ht hop ((PostOp.transfers_iff defaultConfig).mp htr)
        omega
  · rintro ⟨hno, hsep⟩ e rfl he hpos
    have hend := h.end_le he.lt
    have hzero : ∀ x, bss e ≤ x → x < bss (e + 1) → (postOps true nb n t bss).countP (·.shares x) =
        0 := fun x _ _ =>
      List.countP_eq_zero.mpr fun op hop hsh => by
        cases op with
        | share lo hi => exact hno _ hop ⟨lo, hi, rfl⟩
        | sortAndMove b => cases hsh
        | move b => cases hsh
    obtain ⟨i, hi₁, hi₂⟩ := (countP_shares_eq_zero_iff h ht he hpos).mp hzero
    refine ⟨i, ?_, hi₁, hi₂⟩
    by_contra hlt
    -- the bucket before this one begins in an earlier stripe, whose thread does both
    have hstep := h.step (e - 1) (by omega)
    rw [Nat.sub_add_cancel (by omega)] at hstep
    have hx : bss (e - 1) < n := by omega
    have hk₁ := first_owner_le ht hx
    have hk₂ := lt_first_owner ht hx
    have hk₃ : first n t (owner n t (bss (e - 1)) + 1) ≤ first n t i := by
      by_contra hge
      have : i < owner n t (bss (e - 1)) + 1 := by
        by_contra hle
        exact hge (first_mono (by omega))
      have := first_mono (n := n) (t := t) (show i ≤ owner n t (bss (e - 1)) by omega)
      omega
    have hone := countP_of_pairwise defaultConfig hsep (bss e)
    rw [countP_postOps h ht defaultConfig true he le_rfl hpos] at hone
    have hsum := sum_doneTwice_eq_zero_iff.mp (Nat.le_zero.mp (Nat.le_of_add_le_add_left hone))
    exact hsum _ (owner_lt ht hx) ⟨hk₁, hk₂, by omega, by omega⟩

end

/-! ### Steps that respect the lifetimes -/

/-- The element of a position lies in the array that begins at `src`, and there is no object in the
one that begins at `other`. -/
def LiesIn (src other : Ptr A) (m : Mem A (Slot α)) (x : ℕ) : Prop :=
  m.slot (other + x) = .raw ∧ ∃ v, m.slot (src + x) = .full v

/-- Where a step leaves the element of a position it touches. -/
def PostOp.Leaves (p tmp : Ptr A) (m : Mem A (Slot α)) (x : ℕ) : PostOp → Prop
  | .sortAndMove _ => LiesIn tmp p m x ∨ LiesIn p tmp m x
  | .move _ => LiesIn p tmp m x
  | .share _ _ => True

/-- The slots of the positions that steps touch. -/
def stepsRegion (p tmp : Ptr A) (bss : ℕ → ℕ) (ops : List PostOp) : Set (Loc A) :=
  {l | ∃ op ∈ ops, ∃ x, op.Touches bss x ∧ (l = .elem (p + x) ∨ l = .elem (tmp + x))}

section
variable {p tmp : Ptr A} {bss : ℕ → ℕ} {m m' : Mem A (Slot α)}

theorem LiesIn.of_eq {x : ℕ} (h : LiesIn tmp p m x) (hp : m.slot (p + x) = m'.slot (p + x))
    (htmp : m.slot (tmp + x) = m'.slot (tmp + x)) : LiesIn tmp p m' x := by
  obtain ⟨hraw, v, hv⟩ := h
  exact ⟨hp ▸ hraw, v, htmp ▸ hv⟩

theorem PostOp.Leaves.of_eq {op : PostOp} {x : ℕ} (h : op.Leaves p tmp m x)
    (hp : m.slot (p + x) = m'.slot (p + x)) (htmp : m.slot (tmp + x) = m'.slot (tmp + x)) :
    op.Leaves p tmp m' x := by
  cases op with
  | sortAndMove b => exact h.imp (·.of_eq hp htmp) (·.of_eq htmp hp)
  | move b => exact LiesIn.of_eq h htmp hp
  | share lo hi => trivial

/-- Positions that separate steps touch are separate. -/
theorem notMem_stepsRegion (bss : ℕ → ℕ) (harr : p.arr ≠ tmp.arr) (ops : List PostOp) (x : ℕ)
    (hx : ∀ op ∈ ops, ¬ op.Touches bss x) :
    .elem (p + x) ∉ stepsRegion p tmp bss ops ∧ .elem (tmp + x) ∉ stepsRegion p tmp bss ops := by
  constructor
  · rintro ⟨op, hop, y, hy, hl | hl⟩
    · exact hx op hop ((Ptr.add_inj p).mp (Loc.elem.inj hl) ▸ hy)
    · exact ptr_add_ne harr x y (Loc.elem.inj hl)
  · rintro ⟨op, hop, y, hy, hl | hl⟩
    · exact ptr_add_ne harr y x (Loc.elem.inj hl).symm
    · exact hx op hop ((Ptr.add_inj tmp).mp (Loc.elem.inj hl) ▸ hy)

variable [DecidableEq A] {comp : α → α → Bool} {cfg : Config} {lastLevel : Bool}

/-- Putting a bucket back. -/
theorem sat_back (harr : p.arr ≠ tmp.arr) {b : ℕ} {vs : List α}
    (hlen : vs.length = bss (b + 1) - bss b) (hm : Has m (tmp + bss b) (vs.map .full))
    (hraw : Raw m (p + bss b) vs.length) :
    Sat (slots A α false) (stepsRegion p tmp bss [.move b])
      (transfer (tmp + bss b) (p + bss b) (bss (b + 1) - bss b)) m
      fun _ m' => ∀ x, bss b ≤ x → x < bss (b + 1) → LiesIn p tmp m' x := by
  rw [← hlen]
  refine (sat_transfer (show (tmp + bss b).arr ≠ (p + bss b).arr from harr.symm) hm hraw).mono ?_ ?_
  · rintro l (⟨k, hk, rfl⟩ | ⟨k, hk, rfl⟩)
    · exact ⟨_, List.mem_singleton_self _, bss b + k, ⟨by omega, by omega⟩,
        .inr (by rw [Ptr.add_assoc])⟩
    · exact ⟨_, List.mem_singleton_self _, bss b + k, ⟨by omega, by omega⟩,
        .inl (by rw [Ptr.add_assoc])⟩
  · rintro _ m' ⟨hfull, hempty⟩ x hx₁ hx₂
    have hk : x - bss b < vs.length := by omega
    have hraw' := hempty (x - bss b) hk
    have hfull' := hfull (x - bss b) (.full (vs.get ⟨x - bss b, hk⟩)) (by simp [hk])
    rw [Ptr.add_assoc, Nat.add_sub_of_le hx₁] at hraw' hfull'
    exact ⟨hraw', _, hfull'⟩

/-- **A step that shares nothing respects the lifetimes.** -/
theorem sat_step (harr : p.arr ≠ tmp.arr) {op : PostOp} (hno : ¬ op.Shares)
    (hm : ∀ x, op.Touches bss x → LiesIn tmp p m x) :
    Sat (slots A α false) (stepsRegion p tmp bss [op]) (op.act comp cfg p tmp lastLevel true bss) m
      fun _ m' =>
      ∀ x, op.Touches bss x → op.Leaves p tmp m' x := by
  have hbucket : ∀ b, (∀ x, bss b ≤ x → x < bss (b + 1) → LiesIn tmp p m x) →
      (∃ vs : List α, vs.length = bss (b + 1) - bss b ∧ Has m (tmp + bss b) (vs.map .full)) ∧
        Raw m (p + bss b) (bss (b + 1) - bss b) := fun b hb => by
    refine ⟨exists_has fun k hk => ?_, fun k hk => ?_⟩
    · rw [Ptr.add_assoc]
      exact (hb _ (Nat.le_add_right _ _) (by omega)).2
    · rw [Ptr.add_assoc]
      exact (hb _ (Nat.le_add_right _ _) (by omega)).1
  cases op with
  | share lo hi => exact absurd ⟨lo, hi, rfl⟩ hno
  | move b =>
    obtain ⟨⟨vs, hlen, hvs⟩, hraw⟩ := hbucket b fun x hx₁ hx₂ => hm x ⟨hx₁, hx₂⟩
    exact (sat_back harr hlen hvs (hlen ▸ hraw)).imp fun _ m' h x hx => h x hx.1 hx.2
  | sortAndMove b =>
    obtain ⟨⟨vs, hlen, hvs⟩, hraw⟩ := hbucket b fun x hx₁ hx₂ => hm x ⟨hx₁, hx₂⟩
    simp only [PostOp.act, Ps4o.sortAndMove, if_true]
    split
    · rw [sat_bind]
      have hsort : Sat (slots A α false) _ _ _ _ := (sat_baseCaseSort comp hvs).frame
      rw [hlen] at hsort
      refine hsort.mono ?_ fun _ m₁ h₁ => ?_
      · rintro l ⟨k, hk, rfl⟩
        exact ⟨_, List.mem_singleton_self _, bss b + k, ⟨by omega, by omega⟩,
          .inr (by rw [Ptr.add_assoc])⟩
      · obtain ⟨hsorted, hf⟩ := h₁
        have hlen' := (insertionSorted_perm comp vs).length_eq
        have hraw₁ : Raw m₁ (p + bss b) (insertionSorted comp vs).length := by
          rw [hlen', hlen]
          exact hraw.frame hf fun i _ => by simp [elem_mem_seg, harr]
        refine (sat_back harr (hlen'.trans hlen) hsorted hraw₁).mono ?_
          fun _ m' h x hx => .inr (h x hx.1 hx.2)
        rintro l ⟨op, hop, x, hx, hl⟩
        obtain rfl := List.mem_singleton.mp hop
        exact ⟨_, List.mem_singleton_self _, x, hx, hl⟩
    · exact fun x hx => .inl (hm x hx)

variable (comp cfg lastLevel) in
/-- **Separate steps that share nothing respect the lifetimes**, one after the other. -/
theorem sat_steps (harr : p.arr ≠ tmp.arr) {ops : List PostOp} (hno : ∀ op ∈ ops, ¬ op.Shares)
    (hsep : ops.Pairwise (Separate bss))
    (hm : ∀ op ∈ ops, ∀ x, op.Touches bss x → LiesIn tmp p m x) :
    Sat (slots A α false) (stepsRegion p tmp bss ops)
      (ops.foldlM (fun _ op => op.act comp cfg p tmp lastLevel true bss) ()) m fun _ m' =>
        ∀ op ∈ ops, ∀ x, op.Touches bss x → op.Leaves p tmp m' x := by
  induction hsep generalizing m with
  | nil => exact fun op hop => absurd hop List.not_mem_nil
  | @cons op ops hop _ ih =>
    rw [List.foldlM_cons, sat_bind]
    refine (sat_step harr (hno op List.mem_cons_self) (hm op List.mem_cons_self)).frame.mono ?_ ?_
    · rintro l ⟨op', hop', hl⟩
      exact ⟨op, List.mem_cons_self, List.mem_singleton.mp hop' ▸ hl⟩
    · rintro _ m₁ ⟨hleft, hf⟩
      have hrest := ih (m := m₁) (fun op' hop' => hno op' (List.mem_cons_of_mem _ hop'))
          fun op' hop' x hx => by
        obtain ⟨h₁, h₂⟩ := notMem_stepsRegion bss harr [op] x fun op'' hop'' hx' =>
          hop op' hop' x (List.mem_singleton.mp hop'' ▸ hx') hx
        exact (hm op' (List.mem_cons_of_mem _ hop') x hx).of_eq (hf (.elem (p + x)) h₁)
          (hf (.elem (tmp + x)) h₂)
      refine hrest.frame.mono ?_ ?_
      · rintro l ⟨op', hop', hl⟩
        exact ⟨op', List.mem_cons_of_mem _ hop', hl⟩
      · rintro _ m₂ ⟨hleft₂, hf₂⟩ op' hop' x hx
        rcases List.mem_cons.mp hop' with rfl | hop'
        · obtain ⟨h₁, h₂⟩ := notMem_stepsRegion bss harr _ x fun op'' hop'' hx' =>
            hop op'' hop'' x hx hx'
          exact (hleft x hx).of_eq (hf₂ (.elem (p + x)) h₁) (hf₂ (.elem (tmp + x)) h₂)
        · exact hleft₂ op' hop' x hx

end

/-! ### The threads together -/

section
variable [DecidableEq A] {ι γ : Type} [DecidableEq ι]

/-- Whatever a team has come to from `m`, none of its threads has halted, the next command of each
respects the lifetimes, and with the result `Q` holds. -/
def TeamDisciplined (t : Team (Cmd A α) Cmd.Ans ι γ) (m : Mem A (Slot α))
    (Q : γ → Mem A (Slot α) → Prop) : Prop :=
  ∀ t' m', Relation.ReflTransGen (Team.Step (slots A α false)) (t, m) (t', m') →
    (∀ (β : Type) (progs : ι → Act A α β) next, t' = .stage progs next →
      ∀ i, (∀ w, progs i ≠ .halt w) ∧ ∀ o k, progs i = .cmd o k → o.Respects (Live m')) ∧
    ∀ c, t' = .done c → Q c m'

variable {t t' : Team (Cmd A α) Cmd.Ans ι γ} {m m' : Mem A (Slot α)} {Q : γ → Mem A (Slot α) → Prop}

/-- **A team that is right respects the lifetimes** at every command. -/
theorem teamDisciplined_of_sat {R : Set (Loc A)} (h : t.Sat (slots A α false) R m Q) :
    TeamDisciplined t m Q := by
  intro t' m' hr
  have hsat : t'.Sat (slots A α false) R m' Q := by
    have key : ∀ s, Relation.ReflTransGen (Team.Step (slots A α false)) (t, m) s →
        s.1.Sat (slots A α false) R s.2 Q := by
      intro s hs
      induction hs with
      | refl => exact h
      | tail _ hstep ih => exact (ih.step hstep).1
    exact key _ hr
  refine ⟨?_, ?_⟩
  · rintro β progs next rfl i
    obtain ⟨Q', hc, -⟩ := hsat
    have hstuck := hc.not_stuck i
    unfold Pool.Stuck at hstuck
    refine ⟨fun w hw => ?_, fun o k ho => ?_⟩
    · simp [hw] at hstuck
    · simp only [ho, not_exists] at hstuck
      obtain ⟨⟨a, m₂⟩, he⟩ := Option.ne_none_iff_exists'.mp (hstuck 0)
      exact respects_of_exec he
  · rintro c rfl
    exact hsat m' (.refl _ R m')

/-- What a team has come to is disciplined, too. -/
theorem TeamDisciplined.steps (h : TeamDisciplined t m Q)
    (hs : Relation.ReflTransGen (Team.Step (slots A α false)) (t, m) (t', m')) :
    TeamDisciplined t' m' Q :=
  fun t₂ m₂ hr => h t₂ m₂ (hs.trans hr)

end

/-! ### After classifying -/

/-- The elements have been classified: the oracle names their buckets, the scan of the counters has
put the cursors where they belong, the range holds objects, and there are none where it will be
distributed to. -/
structure Classified (p tmp : Ptr A) (oracle : ℕ) (ks : List ℕ) (xs : List α) (eq : Bool) (nb t : ℕ)
    (o : Offsets) (m : Mem A (Slot α)) : Prop where
  arr_ne : p.arr ≠ tmp.arr
  length_eq : ks.length = xs.length
  byte_lt : ∀ k ∈ ks, k < 256
  elems : Has m p (xs.map .full)
  raw : Raw m tmp xs.length
  oracle : Oracle m oracle ks
  cursor : ∀ i < t, ∀ b ∈ ks, o.bucketStart i b = cursor ks (first xs.length t i) b
  save : ∀ b ≤ nb, o.bucketStartSave b = start ks b
  boundaries : Boundaries eq nb xs.length o.bucketStartSave

/-- Of the two slots of every position, one is live. -/
def Complementary (p tmp : Ptr A) (n : ℕ) (m : Mem A (Slot α)) : Prop :=
  ∀ x < n, Live m (p + x) ↔ ¬ Live m (tmp + x)

theorem LiesIn.complementary {p tmp : Ptr A} {m : Mem A (Slot α)} {x : ℕ}
    (h : LiesIn tmp p m x ∨ LiesIn p tmp m x) : Live m (p + x) ↔ ¬ Live m (tmp + x) := by
  rcases h with ⟨hraw, v, hv⟩ | ⟨hraw, v, hv⟩
  · simp [Live, hraw, hv]
  · simp [Live, hraw, hv]

theorem PostOp.Leaves.complementary {p tmp : Ptr A} {m : Mem A (Slot α)} {x : ℕ} {op : PostOp}
    (hno : ¬ op.Shares) (h : op.Leaves p tmp m x) : Live m (p + x) ↔ ¬ Live m (tmp + x) := by
  cases op with
  | sortAndMove b => exact LiesIn.complementary h
  | move b => exact LiesIn.complementary (.inr h)
  | share lo hi => exact absurd ⟨lo, hi, rfl⟩ hno

section
variable [DecidableEq A] {comp : α → α → Bool} {cfg : Config} {p tmp : Ptr A} {oracle : ℕ}
  {ks : List ℕ} {xs : List α} {eq : Bool} {nb t : ℕ} {o : Offsets} {m : Mem A (Slot α)}
  {lastLevel : Bool} {c c' : Classifier α} {sorter : Fin t → Sorter α}

/-- When all threads have distributed their stripes, all elements are in the other array. -/
theorem Classified.liesIn (h : Classified p tmp oracle ks xs eq nb t o m)
    (ht : 1 ≤ t) {m₁ : Mem A (Slot α)} (hm₁ : ∀ i : Fin t, ∃ m₂, (m₂.byte = m.byte ∧
        (∀ j, first xs.length t i ≤ j → j < first xs.length t (i + 1) → m₂.slot (p + j) = .raw) ∧
        ∀ j x, first xs.length t i ≤ j → j < first xs.length t (i + 1) → xs[j]? = some x →
          m₂.slot (tmp + dest ks j) = .full x) ∧
      (slots A α false).AgreeOn (distributeRegion p tmp oracle ks (first xs.length t i)
        (first xs.length t (i + 1) - first xs.length t i)) m₂ m₁) :
    ∀ x < xs.length, LiesIn tmp p m₁ x := by
  have hown : ∀ j < xs.length, ∃ i : Fin t, first xs.length t i ≤ j ∧
      j < first xs.length t (i + 1) := fun j hj =>
    ⟨⟨owner xs.length t j, owner_lt ht hj⟩, first_owner_le ht hj, lt_first_owner ht hj⟩
  intro x hx
  constructor
  · obtain ⟨i, hi₁, hi₂⟩ := hown x hx
    obtain ⟨m₂, ⟨-, hsource, -⟩, hag⟩ := hm₁ i
    exact (hag (.elem (p + x)) ⟨x, hi₁, by omega, .inl rfl⟩).symm.trans (hsource x hi₁ hi₂)
  · obtain ⟨j, hj, rfl⟩ : ∃ j < ks.length, dest ks j = x := dest_surj (h.length_eq ▸ hx)
    have hj' : j < xs.length := h.length_eq ▸ hj
    obtain ⟨i, hi₁, hi₂⟩ := hown j hj'
    obtain ⟨m₂, ⟨-, -, htarget⟩, hag⟩ := hm₁ i
    exact ⟨_, (hag (.elem (tmp + dest ks j)) ⟨j, hi₁, by omega, .inr (.inl rfl)⟩).symm.trans
      (htarget j _ hi₁ hi₂ (List.getElem?_eq_getElem hj'))⟩

/-- **When the equality buckets lie as they should, the threads respect the lifetimes.** -/
theorem sat_lifetimes (h : Classified p tmp oracle ks xs eq nb t o m) (ht : 1 ≤ t)
    (hreset : c.reset = some c') (hs : ∀ i, (sorter i).data.classifier.Empty)
    (hin : InOneStripe eq nb xs.length t o.bucketStartSave) :
    (distributionStage comp cfg p xs.length tmp oracle lastLevel true eq nb o c sorter).Sat
      (slots A α false) Set.univ m fun _ m' => Complementary p tmp xs.length m' := by
  have hb := h.boundaries
  obtain ⟨hno, hsep⟩ := (inOneStripe_iff hb ht).mp hin
  obtain ⟨hown, hapart⟩ := pairwise_postOps_iff.mp hsep
  have hmem : ∀ i : Fin t, ∀ op ∈ threadOps eq nb xs.length t o.bucketStartSave i,
      op ∈ postOps eq nb xs.length t o.bucketStartSave := fun i op hop =>
    List.mem_flatMap.mpr ⟨i, List.mem_range.mpr i.isLt, hop⟩
  have hdist := distributionPool_isolated (t := t) false h.length_eq h.byte_lt h.cursor
    h.arr_ne h.elems h.oracle h.raw
  refine ⟨_, Cooperate.of_sat (fun _ => Set.subset_univ _) hdist.disjoint hdist.sat,
    fun bs m₁ hm₁ => ?_⟩
  have hlies := h.liesIn ht hm₁
  have hsat : ∀ i : Fin t, Sat (slots A α false)
      (stepsRegion p tmp o.bucketStartSave (threadOps eq nb xs.length t o.bucketStartSave i))
      (finishThread comp cfg p tmp lastLevel true o.bucketStartSave eq nb xs.length t i) m₁ _ :=
          fun i =>
    sat_steps comp cfg lastLevel h.arr_ne (fun op hop => hno op (hmem i op hop)) (hown i i.isLt)
      fun op hop x hx => hlies x (lt_of_touches hb ht hop hx)
  refine ⟨_, Cooperate.of_sat (fun _ => Set.subset_univ _) (fun i j hij l hl => ?_) hsat,
    fun _ m₂ hm₂ => ?_⟩
  · obtain ⟨op, hop, x, hx, hl⟩ := hl
    obtain ⟨h₁, h₂⟩ := notMem_stepsRegion o.bucketStartSave h.arr_ne _ x fun op' hop' =>
      hapart i i.isLt j j.isLt (fun heq => hij (Fin.ext heq)) op hop op' hop' x hx
    rcases hl with rfl | rfl
    · exact h₁
    · exact h₂
  refine ⟨_, Cooperate.of_sat_empty fun i => sat_resetData (hs i) hreset,
    fun s m₃ hm₃ m₄ hm₄ x hx => ?_⟩
  obtain ⟨i, hi, op, hop, htouch⟩ := exists_touches hb ht hx
  obtain ⟨m', hleft, hag⟩ := hm₂ ⟨i, hi⟩
  have heq : ∀ q, m₂.slot q = m₄.slot q :=
    fun q => ((hm₃ ⟨i, hi⟩).2 (.elem q) trivial).trans (hm₄ (.elem q) trivial)
  have hleft' := (hleft op hop x htouch).of_eq (hag (.elem (p + x)) ⟨op, hop, x, htouch, .inl rfl⟩)
    (hag (.elem (tmp + x)) ⟨op, hop, x, htouch, .inr rfl⟩)
  exact (hleft'.of_eq (heq _) (heq _)).complementary (hno op (hmem ⟨i, hi⟩ op hop))

/-! ### Where the lifetimes are not respected -/

variable {β γ : Type} {next : (Fin t → β) → Team (Cmd A α) Cmd.Ans (Fin t) γ}
  {progs : Fin t → Act A α β} {Q : γ → Mem A (Slot α) → Prop} {bss : ℕ → ℕ}

/-- **Sharing assigns to destroyed objects.** -/
theorem not_disciplined_share {i : Fin t} {lo hi : ℕ} {f : Unit → Act A α β}
    (harr : p.arr ≠ tmp.arr) (hlt : lo < hi) (hm : LiesIn tmp p m lo)
    (hp : progs i = PostOp.act comp cfg p tmp lastLevel true bss (.share lo hi) >>= f) :
    ¬ TeamDisciplined (.stage progs next) m Q := by
  intro hd
  obtain ⟨hraw, v, hv⟩ := hm
  obtain ⟨d, hd'⟩ := Nat.exists_eq_add_of_lt hlt
  have hsize : hi - lo = d + 1 := by omega
  -- the first element is moved from
  obtain ⟨k, hk, hk'⟩ : ∃ k, progs i = .cmd (.move (tmp + lo)) k ∧
      ∃ k', k v = .cmd (.assign (p + lo) v) k' := by
    rw [hp, PostOp.act, moveAssign, hsize, Prog.loop_succ]
    exact ⟨_, rfl, _, rfl⟩
  have hstep : Pool.step (slots A α false) i 0 ⟨progs, m⟩ =
      some (.move (tmp + lo), ⟨Function.update progs i (k v), m.set (tmp + lo) .moved⟩) := by
    simp [Pool.step, hk, slots, slotExec, hv]
  obtain ⟨k', hk'⟩ := hk'
  -- and assigned to a slot without an object
  refine ((hd _ _ (.single (.cmd hstep))).1 _ _ _ rfl i).2 (.assign (p + lo) v) k' ?_ ?_
  · exact (Function.update_self i (k v) progs).trans hk'
  rw [Mem.set_slot, Function.update_of_ne (ptr_add_ne harr lo lo)]
  exact hraw

variable (comp cfg lastLevel) in
/-- **Moving a bucket again** moves from destroyed objects. -/
theorem not_disciplined_move {i : Fin t} {e : ℕ} {f : Unit → Act A α β} (hpos : bss e < bss (e + 1))
    (hm : LiesIn p tmp m (bss e))
    (hp : progs i = PostOp.act comp cfg p tmp lastLevel true bss (.move e) >>= f) :
    ¬ TeamDisciplined (.stage progs next) m Q := by
  intro hd
  obtain ⟨d, hd'⟩ := Nat.exists_eq_add_of_lt hpos
  have hsize : bss (e + 1) - bss e = d + 1 := by omega
  obtain ⟨k, hk⟩ : ∃ k, progs i = .cmd (.move (tmp + bss e)) k := by
    rw [hp, PostOp.act, Ps4o.move, if_pos rfl, transfer, hsize, Prog.loop_succ]
    exact ⟨_, rfl⟩
  exact ((hd _ _ .refl).1 _ _ _ rfl i).2 _ k hk hm.1

/-- The first step that is not separate from steps of another thread. -/
theorem exists_first_overlap {ops ops' : List PostOp}
    (h : ∃ op ∈ ops', ∃ op' ∈ ops, ¬ Separate bss op' op) :
    ∃ pre op suf, ops' = pre ++ op :: suf ∧ (∃ op' ∈ ops, ¬ Separate bss op' op) ∧
      ∀ op₁ ∈ pre, ∀ op' ∈ ops, Separate bss op' op₁ := by
  induction ops' with
  | nil =>
    obtain ⟨op, hop, -⟩ := h
    cases hop
  | cons op₁ ops' ih =>
    by_cases h₁ : ∃ op' ∈ ops, ¬ Separate bss op' op₁
    · exact ⟨[], op₁, ops', rfl, h₁, fun _ hop => absurd hop List.not_mem_nil⟩
    · push Not at h₁
      obtain ⟨op, hop, hover⟩ := h
      have hmem : op ∈ ops' := (List.mem_cons.mp hop).resolve_left fun heq => by
        obtain ⟨op', hop', hsep⟩ := hover
        exact hsep (heq ▸ h₁ op' hop')
      obtain ⟨pre, op₂, suf, heq, hover₂, hpre⟩ := ih ⟨op, hmem, hover⟩
      refine ⟨op₁ :: pre, op₂, suf, by rw [heq, List.cons_append], hover₂, fun op' hop' => ?_⟩
      rcases List.mem_cons.mp hop' with rfl | hop'
      · exact h₁
      · exact hpre op' hop'

/-- Steps of two threads that share nothing and are about the same position move an equality
bucket. -/
theorem eq_move_of_overlap {n i j : ℕ} {op op' : PostOp} (h : Boundaries eq nb n bss) (ht : 1 ≤ t)
    (hij : i ≠ j) (hop : op ∈ threadOps eq nb n t bss i) (hop' : op' ∈ threadOps eq nb n t bss j)
    (hno : ¬ op.Shares) (hno' : ¬ op'.Shares) (hover : ¬ Separate bss op op') :
    ∃ e, op = .move e ∧ op' = .move e ∧ bss e < bss (e + 1) := by
  simp only [Separate, not_forall, not_not] at hover
  obtain ⟨x, hx, hx'⟩ := hover
  rcases mem_threadOps h ht hop with ⟨c, hc, hne, rfl⟩ | ⟨e, he, rfl⟩ | ⟨e, lo, hi, he, rfl, -⟩
  · rcases mem_threadOps h ht hop' with ⟨d, hd, hned, rfl⟩ | ⟨e, he, rfl⟩ | ⟨e, lo, hi, he, rfl, -⟩
    · obtain rfl := h.eq_of_mem hc hd hx.1 hx.2 hx'.1 hx'.2
      exact absurd (sortAndMove_unique h ht hc hne (hx.1.trans_lt hx.2) hop hop') hij
    · exact absurd (h.eq_of_mem hc he.2.lt hx.1 hx.2 hx'.1 hx'.2 ▸ he) hne
    · exact absurd ⟨lo, hi, rfl⟩ hno'
  · rcases mem_threadOps h ht hop' with ⟨d, hd, hned, rfl⟩ | ⟨e', he',
      rfl⟩ | ⟨e, lo, hi, he, rfl, -⟩
    · exact absurd (h.eq_of_mem he.2.lt hd hx.1 hx.2 hx'.1 hx'.2 ▸ he) hned
    · obtain rfl := h.eq_of_mem he.2.lt he'.2.lt hx.1 hx.2 hx'.1 hx'.2
      exact ⟨e, rfl, rfl, hx.1.trans_lt hx.2⟩
    · exact absurd ⟨lo, hi, rfl⟩ hno'
  · exact absurd ⟨lo, hi, rfl⟩ hno

variable (comp cfg lastLevel) in
/-- **Two threads that do the same bucket**: one of them does all its steps, and then the other one
comes to the bucket. -/
theorem not_disciplined_overlap {n : ℕ} {next : (Fin t → Unit) → Team (Cmd A α) Cmd.Ans (Fin t) γ}
    (h : Boundaries eq nb n bss) (ht : 1 ≤ t) (harr : p.arr ≠ tmp.arr)
    (hno : ∀ i : Fin t, ∀ op ∈ threadOps eq nb n t bss i, ¬ op.Shares)
    (hm : ∀ x < n, LiesIn tmp p m x) {i j : Fin t} (hij : i ≠ j)
    (hover : ∃ op ∈ threadOps eq nb n t bss j, ∃ op' ∈ threadOps eq nb n t bss i,
      ¬ Separate bss op' op) :
    ¬ TeamDisciplined (.stage (fun i : Fin t => finishThread comp cfg p tmp lastLevel true bss
      eq nb n t i) next) m Q := by
  intro hd
  obtain ⟨pre, op, suf, hops, ⟨op', hop', hsep⟩, hpre⟩ := exists_first_overlap hover
  have hop : op ∈ threadOps eq nb n t bss j := by
    rw [hops]
    exact List.mem_append_right _ List.mem_cons_self
  have hsub : ∀ op₁ ∈ pre, op₁ ∈ threadOps eq nb n t bss j := fun op₁ hop₁ => by
    rw [hops]
    exact List.mem_append_left _ hop₁
  obtain ⟨e, rfl, rfl, hpos⟩ := eq_move_of_overlap h ht
    (fun heq => hij (Fin.ext heq)) hop' hop (hno i _ hop') (hno j _ hop) hsep
  -- all steps of the first thread
  have hi := (sat_steps comp cfg lastLevel harr (hno i)
    (pairwise_threadOps h ht i.isLt (hno i)) fun op hop x hx =>
    hm x (lt_of_touches h ht hop hx)).frame
  obtain ⟨sched, log, b, m₁, hrun, hleft, hf⟩ := Pool.exists_run_bind (i := i)
    (P := ⟨fun i : Fin t => finishThread comp cfg p tmp lastLevel true bss eq nb n t i, m⟩)
      (f := Prog.ret)
    (Prog.bind_ret _).symm hi
  have hd₁ := hd.steps (Team.steps_of_run hrun)
  -- and those of the second one before the bucket
  have hpair := pairwise_threadOps h ht j.isLt (hno j)
  rw [hops, List.pairwise_append] at hpair
  have hj := (sat_steps comp cfg lastLevel (m := m₁) harr
    (fun op₁ hop₁ => hno j op₁ (hsub op₁ hop₁)) hpair.1 fun op₁ hop₁ x hx => by
      obtain ⟨h₁, h₂⟩ := notMem_stepsRegion bss harr _ x fun op₂ hop₂ hx' =>
        hpre op₁ hop₁ op₂ hop₂ x hx' hx
      exact (hm x (lt_of_touches h ht (hsub op₁ hop₁) hx)).of_eq (hf (.elem (p + x)) h₁)
        (hf (.elem (tmp + x)) h₂)).frame
  set P : Pool (Cmd A α) Cmd.Ans (Fin t) Unit (Mem A (Slot α)) :=
    ⟨Function.update (fun i : Fin t => finishThread comp cfg p tmp lastLevel true bss eq nb n t i) i
      (.ret b), m₁⟩
  have hprog : P.prog j = pre.foldlM (fun _ op => op.act comp cfg p tmp lastLevel true bss)
      () >>= fun _ =>
      (PostOp.move e).act comp cfg p tmp lastLevel true bss >>= fun _ =>
        suf.foldlM (fun _ op => op.act comp cfg p tmp lastLevel true bss) () := by
    have hj' : P.prog j = finishThread comp cfg p tmp lastLevel true bss eq nb n t j := by
      simp only [P, Function.update_of_ne hij.symm]
    rw [hj', finishThread, hops, List.foldlM_append]
    rfl
  obtain ⟨sched₂, log₂, b₂, m₂, hrun₂, -, hf₂⟩ := Pool.exists_run_bind hprog hj
  refine not_disciplined_move comp cfg lastLevel (i := j) hpos ?_
    (Function.update_self _ _ _) (hd₁.steps (Team.steps_of_run hrun₂))
  have hx : (PostOp.move e).Touches bss (bss e) := ⟨le_rfl, hpos⟩
  obtain ⟨h₁, h₂⟩ := notMem_stepsRegion bss harr _ (bss e) fun op₁ hop₁ hx' =>
    hpair.2.2 op₁ hop₁ _ List.mem_cons_self _ hx' hx
  exact (hleft _ hop' _ hx).of_eq (hf₂ (.elem (p + bss e)) h₁) (hf₂ (.elem (tmp + bss e)) h₂)

end

/-! ### Just when -/

section
variable [DecidableEq A] {comp : α → α → Bool} {cfg : Config} {p tmp : Ptr A} {oracle : ℕ}
  {ks : List ℕ} {xs : List α} {eq : Bool} {nb t : ℕ} {o : Offsets} {m : Mem A (Slot α)}
  {lastLevel : Bool} {c c' : Classifier α} {sorter : Fin t → Sorter α}

/-- **The threads respect the lifetimes just when the equality buckets lie as they should**:
whatever the schedule, from distributing on, every object is constructed in a raw slot, and what is
read, moved from, assigned or destroyed is an object, and at the end one of the two slots of every
position is live, just when every equality bucket that is not empty lies, with the beginning of the
bucket before it, in one stripe and apart from its edges. -/
theorem lifetimes_iff (h : Classified p tmp oracle ks xs eq nb t o m) (ht : 1 ≤ t)
    (hreset : c.reset = some c') (hs : ∀ i, (sorter i).data.classifier.Empty) :
    TeamDisciplined (distributionStage comp cfg p xs.length tmp oracle
        lastLevel true eq nb o c sorter) m (fun _ m' => Complementary p tmp xs.length m') ↔
      InOneStripe eq nb xs.length t o.bucketStartSave := by
  refine ⟨fun hd => ?_, fun hin => teamDisciplined_of_sat (sat_lifetimes h ht hreset hs hin)⟩
  have hb := h.boundaries
  -- all threads distribute
  have hdist := distributionPool_isolated (t := t) false h.length_eq h.byte_lt h.cursor
    h.arr_ne h.elems h.oracle h.raw
  obtain ⟨sched, log, P, hrun, hret⟩ := hdist.exists_run (List.finRange t)
  have hret' : ∀ i, P.Returned i := fun i => hret i (List.mem_finRange i)
  choose bs hbs using hret'
  have hlies := h.liesIn ht fun i => (hdist.run hrun).2.2.1 i (bs i) (hbs i)
  have hd' := hd.steps ((Team.steps_of_run hrun).tail (.barrier hbs))
  rw [inOneStripe_iff hb ht, pairwise_postOps_iff]
  have hno : ∀ i : Fin t, ∀ op ∈ threadOps eq nb xs.length t o.bucketStartSave i, ¬ op.Shares := by
    intro i op hop hsh
    obtain ⟨lo, hi, rest, hops⟩ := exists_share_first hb ht hop hsh
    have hmem : .share lo hi ∈ threadOps eq nb xs.length t o.bucketStartSave i :=
      hops ▸ List.mem_cons_self
    have hlt : lo < hi := by
      cases eq with
      | false =>
        obtain ⟨j, -, hj⟩ := mem_singles hmem
        cases hj
      | true => exact lt_of_share hb ht hmem
    have hprog : finishThread comp cfg p tmp lastLevel true o.bucketStartSave eq nb xs.length t i =
        (PostOp.share lo hi).act comp cfg p tmp lastLevel true o.bucketStartSave >>= fun _ =>
          rest.foldlM (fun _ op => op.act comp cfg p tmp lastLevel true o.bucketStartSave) () := by
      rw [finishThread, hops, List.foldlM_cons]
    exact not_disciplined_share h.arr_ne hlt
      (hlies lo (lt_of_touches hb ht hmem ⟨le_rfl, hlt⟩)) hprog hd'
  refine ⟨fun op hop => ?_, fun i hi => pairwise_threadOps hb ht hi (hno ⟨i, hi⟩),
    fun i hi j hj hij op hop op' hop' => ?_⟩
  · obtain ⟨i, hi, hop⟩ := List.mem_flatMap.mp hop
    exact hno ⟨i, List.mem_range.mp hi⟩ op hop
  · by_contra hsep
    exact not_disciplined_overlap comp cfg lastLevel hb ht h.arr_ne hno hlies
      (i := ⟨i, hi⟩) (j := ⟨j, hj⟩) (fun heq => hij (Fin.mk.inj heq)) ⟨op', hop', op, hop, hsep⟩ hd'

end

/-- The buckets of elements of three kinds, of which there are `a`, `b` and `c`. -/
def kindKeys (a b c : ℕ) : List ℕ := List.replicate a 0 ++ List.replicate b 1 ++ List.replicate c 3

/-- The elements. -/
def kindElems (a b c : ℕ) : List ℕ := List.replicate a 0 ++ List.replicate b 1 ++ List.replicate c 2

/-- The memory before the elements are distributed. -/
def kindMem (a b c : ℕ) : Mem Arr (Slot ℕ) :=
  Mem.ofList ⟨.input, 0⟩ (kindElems a b c) fun j => UInt8.ofNat ((kindKeys a b c).getD j 0)

/-- The boundaries of the buckets, and the cursors of `t` threads. -/
def kindOffsets (a b c t : ℕ) (bss : ℕ → ℕ) : Offsets :=
  ⟨fun i => cursor (kindKeys a b c) (first (a + b + c) t i), bss, 0⟩

theorem length_kindElems (a b c : ℕ) : (kindElems a b c).length = a + b + c := by
  simp only [kindElems, List.length_append, List.length_replicate]

theorem kinds_classified (a b c t : ℕ) {bss : ℕ → ℕ}
    (h : Boundaries true 4 (a + b + c) bss) (h₁ : bss 1 = a) (h₂ : bss 2 = a + b) :
    Classified ⟨Arr.input, 0⟩ ⟨.tmp, 0⟩ 0 (kindKeys a b c) (kindElems a b c) true 4 t
      (kindOffsets a b c t bss) (kindMem a b c) where
  arr_ne := by decide
  length_eq := by
    simp only [kindKeys, kindElems, List.length_append, List.length_replicate]
  byte_lt k hk := by
    simp only [kindKeys, List.mem_append, List.mem_replicate] at hk
    omega
  elems := has_ofList _ _ _
  raw := raw_ofList _ _ (by decide) _
  oracle j b hb := by
    simp only [kindMem, Mem.ofList, Nat.zero_add, List.getD_eq_getElem?_getD, hb, Option.getD_some]
  cursor i _ b _ := by
    rw [length_kindElems]
    rfl
  save b hb := by
    have h₃ : bss 2 = bss 3 := (h.equal rfl).2.2
    simp only [start, kindKeys, kindOffsets, List.countP_append, List.countP_replicate]
    rcases (show b = 0 ∨ b = 1 ∨ b = 2 ∨ b = 3 ∨
      b = 4 by omega) with rfl | rfl | rfl | rfl | rfl
    · simpa using h.zero
    · simpa using h₁
    · simpa using h₂
    · simpa using h₃.symm.trans h₂
    · simpa using h.last
  boundaries := by
    rw [length_kindElems]
    exact h

/-- Two threads that share the large elements respect the lifetimes. -/
theorem lifetimes_fewEqual :
    TeamDisciplined (distributionStage (fun a b => decide (a < b)) defaultConfig
        ⟨Arr.input, 0⟩ (kindElems 1000 192 7000).length ⟨.tmp, 0⟩ 0 false true true 4
        (kindOffsets 1000 192 7000 2 fewEqual) (Sorter.new id id 0).data.classifier
        fun _ : Fin 2 => Sorter.new id id 0) (kindMem 1000 192 7000)
      fun _ m' => Complementary ⟨.input, 0⟩ ⟨.tmp, 0⟩ (kindElems 1000 192 7000).length m' :=
  (lifetimes_iff (kinds_classified 1000 192 7000 2 fewEqual_boundaries rfl rfl) (by decide)
    (if_pos (Sorter.new_empty id id 0).1) fun _ => Sorter.new_empty id id 0).mpr fun e _ he _ => by
      obtain rfl : e = 1 := by omega
      rw [length_kindElems]
      exact ⟨0, by decide, by decide, by decide⟩

/-- Two threads share the equal elements, and assign them to destroyed objects. -/
theorem not_lifetimes_manyEqual :
    ¬ TeamDisciplined (distributionStage (fun a b => decide (a < b)) defaultConfig
        ⟨Arr.input, 0⟩ (kindElems 100 7900 192).length ⟨.tmp, 0⟩ 0 false true true 4
        (kindOffsets 100 7900 192 2 manyEqual) (Sorter.new id id 0).data.classifier
        fun _ : Fin 2 => Sorter.new id id 0) (kindMem 100 7900 192)
      fun _ m' => Complementary ⟨.input, 0⟩ ⟨.tmp, 0⟩ (kindElems 100 7900 192).length m' := by
  rw [lifetimes_iff (kinds_classified 100 7900 192 2 manyEqual_boundaries rfl rfl) (by decide)
    (if_pos (Sorter.new_empty id id 0).1) fun _ => Sorter.new_empty id id 0]
  intro hin
  rw [length_kindElems] at hin
  obtain ⟨i, -, h₁, h₂⟩ := hin 1 rfl (by decide) (by decide)
  have hfirst : ∀ i, first 8192 2 i = min (i * 4096) 8192 := fun _ => rfl
  rw [hfirst] at h₁ h₂
  rw [show (kindOffsets 100 7900 192 2 manyEqual).bucketStartSave 1 = 100 from rfl] at h₁
  rw [show (kindOffsets 100 7900 192 2 manyEqual).bucketStartSave (1 + 1) = 8000 from rfl] at h₂
  omega

end Ps4o
