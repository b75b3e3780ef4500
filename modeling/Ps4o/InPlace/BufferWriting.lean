import Ps4o.InPlace.SharedMargins

/-!
# Writing the buffers of all threads

The elements that the threads have buffered for a bucket go to its head, one buffer after the other,
and on to its tail when the head is full.

## What is proved

* `sat_writeBufferOf` — what is in one buffer goes on where the previous one has ended.
* `sat_writeBuffers` — the elements of the buffers of all threads are in the head and the tail, and
  the buffers are empty.
-/

namespace Ps4o.InPlace

open Ps4o.Program Ps4o.Storage Ps4o.Order Ps4o.Order.Stripes

variable {α : Type}

/-! ### Writing buffers -/

/-- Buffer `k` holds a list. -/
structure Buffers.Keeps (b : Buffers) (B : ℕ) (m : Mem Area α) (k : ℕ) (vs : List α) : Prop where
  ptr : b.ptr k = k * B + vs.length
  stop : b.stop k = k * B + B
  le : vs.length ≤ B
  has : Has m (Buffers.data B k) vs

/-- Where the next element of a buffer goes when the elements `l` have been written, and how many of
the next ones. -/
def Next (l₁ l₂ : List α) (dst tail : Ptr Area) (l : List α) (r : Ptr Area × Option ℕ) : Prop :=
  (l.length ≤ l₁.length ∧ r.1 = dst + l.length ∧
      (r.2 = some (l₁.length - l.length) ∨ l₂ = [] ∧ r.2.elim True (l₁.length - l.length ≤ ·))) ∨
    l₁.length < l.length ∧ r.1 = tail + (l.length - l₁.length) ∧ r.2 = none

/-- The elements `l` are in the head, which has room for `l₁`, and those that do not fit in the
tail. -/
def Written (l₁ : List α) (dst tail : Ptr Area) (m : Mem Area α) (l : List α) : Prop :=
  Has m dst (l.take l₁.length) ∧ Has m tail (l.drop l₁.length)

section
variable {init : Bool} {B k : ℕ} {m m' : Mem Area α} {b : Buffers} {l₁ l₂ l v : List α}
  {dst tail : Ptr Area} {r : Ptr Area × Option ℕ}

theorem Buffers.Keeps.size (h : b.Keeps B m k v) : b.size B k = v.length := by
  have := h.le
  rw [Buffers.size, h.ptr, h.stop]
  omega

theorem Buffers.size_resetBuffer (h : b.stop k = k * B + B) : (b.resetBuffer B k).size B k = 0 := by
  simp only [Buffers.size, Buffers.resetBuffer, Function.update_self, h]
  omega

theorem Buffers.sat_reset_bits :
    Sat (copies Area α) (seg (Buffers.data B k) B) (b.reset init B k) m fun b' m' => b' =
      b.resetBuffer B k ∧ m' = m := by
  rw [Buffers.reset, sat_bind]
  refine (sat_destroyRange_bits _ _).mono (seg_mono (Nat.sub_le _ _)) ?_
  rintro _ m' rfl
  exact ⟨rfl, rfl⟩

/-- A part of a buffer is moved. -/
theorem sat_moveData_bits {x y : ℕ} (hv : Has m (Buffers.data B k + x) v) (hx : x + v.length ≤ B)
    (hy : y + v.length ≤ l.length) (hdst : dst.arr = .input) :
    Sat (copies Area α) (seg dst l.length ∪ seg (Buffers.data B k) B)
      (moveRange (Buffers.data B k + x) (dst + y) v.length) m fun _ m' =>
      Has m' (dst + y) v ∧ Untouched m m' (seg (dst + y) v.length) :=
  (sat_moveRange_bits rfl hv fun i _ j _ => elem_add_ne (by simp [Buffers.data, hdst])).mono
    (Set.union_subset ((seg_subset hx).trans Set.subset_union_right)
      ((seg_subset hy).trans Set.subset_union_left))
    fun _ _ h => h

section
variable {x : ℕ} (h : Written l₁ dst tail m l) (hv : Has m (Buffers.data B k + x) v)
  (hx : x + v.length ≤ B) (hdst : dst.arr = .input) (htail : tail.arr = .input)
  (hdisj : ∀ i < l₁.length, .elem (dst + i) ∉ seg tail l₂.length)
include h hv hx

include hdst in
variable (l₂) in
/-- Elements are added to the head. -/
theorem Written.sat_head (hfit : l.length + v.length ≤ l₁.length) :
    Sat (copies Area α) (seg dst l₁.length ∪ seg tail l₂.length ∪ seg (Buffers.data B k) B)
      (moveRange (Buffers.data B k + x) (dst + l.length) v.length) m fun _ m' =>
      Written l₁ dst tail m' (l ++ v) ∧
      Untouched m m' (seg dst l₁.length ∪ seg tail l₂.length) := by
  obtain ⟨hhead, -⟩ := h
  have hlen : (l ++ v).length = l.length + v.length := List.length_append
  refine (sat_moveData_bits hv hx hfit hdst).mono
    (Set.union_subset_union_left _ Set.subset_union_left) ?_
  rintro _ m' ⟨hhas, hsame⟩
  refine ⟨⟨?_, ?_⟩, hsame.mono ((seg_subset hfit).trans Set.subset_union_left)⟩
  · rw [List.take_of_length_le (by omega)] at hhead
    rw [List.take_of_length_le (by omega), has_append]
    refine ⟨hsame.has hhead fun i hi hmem => ?_, hhas⟩
    simp only [elem_mem_seg, Ptr.add_off] at hmem
    omega
  · rw [List.drop_eq_nil_of_le (by omega)]
    exact has_nil

include htail hdisj in
/-- Elements are added to the tail, when the head is full. -/
theorem Written.sat_tail (hfull : l₁.length ≤ l.length)
    (hfit : l.length + v.length ≤ l₁.length + l₂.length) :
    Sat (copies Area α) (seg dst l₁.length ∪ seg tail l₂.length ∪ seg (Buffers.data B k) B)
      (moveRange (Buffers.data B k + x) (tail + (l.length - l₁.length)) v.length) m fun _ m' =>
      Written l₁ dst tail m' (l ++ v) ∧
      Untouched m m' (seg dst l₁.length ∪ seg tail l₂.length) := by
  obtain ⟨hhead, hbehind⟩ := h
  refine (sat_moveData_bits (l := l₂) hv hx (by omega) htail).mono
    (Set.union_subset_union_left _ Set.subset_union_right) ?_
  rintro _ m' ⟨hhas, hsame⟩
  have hsub : seg (tail + (l.length - l₁.length)) v.length ⊆ seg tail l₂.length :=
    seg_subset (by omega)
  refine ⟨⟨?_, ?_⟩, hsame.mono (hsub.trans Set.subset_union_right)⟩
  · rw [List.take_append_of_le_length hfull]
    refine hsame.has hhead fun i hi hmem => ?_
    rw [List.length_take] at hi
    exact hdisj i (by omega) (hsub hmem)
  · rw [List.drop_append_of_le_length hfull, has_append, List.length_drop]
    refine ⟨hsame.has hbehind fun i hi hmem => ?_, hhas⟩
    rw [List.length_drop] at hi
    simp only [elem_mem_seg, Ptr.add_off] at hmem
    omega

end

/-- **The elements of a buffer** go to the head, and on to the tail when the head is full. -/
theorem sat_writeBufferOf (hb : b.Keeps B m k v) (hr : Next l₁ l₂ dst tail l r)
    (hle : l.length + v.length ≤ l₁.length + l₂.length) (h : Written l₁ dst tail m l)
    (hdst : dst.arr = .input) (htail : tail.arr = .input)
    (hdisj : ∀ x < l₁.length, .elem (dst + x) ∉ seg tail l₂.length) :
    Sat (copies Area α) (seg dst l₁.length ∪ seg tail l₂.length ∪ seg (Buffers.data B k) B)
      (writeBufferOf init B b k r.1 r.2 tail) m fun r' m' => r'.1 = b.resetBuffer B k ∧
      Next l₁ l₂ dst tail (l ++ v) r'.2 ∧
        Written l₁ dst tail m' (l ++ v) ∧
        Untouched m m' (seg dst l₁.length ∪ seg tail l₂.length) := by
  have hvle := hb.le
  have hlen : (l ++ v).length = l.length + v.length := List.length_append
  have hv : Has m (Buffers.data B k + 0) v := hb.has
  have hdone : ∀ {r' : Ptr Area × Option ℕ} {m' : Mem Area α}, Next l₁ l₂ dst tail (l ++ v) r' →
      Written l₁ dst tail m' (l ++ v) ∧ Untouched m m' (seg dst l₁.length ∪ seg tail l₂.length) →
      Sat (copies Area α) (seg dst l₁.length ∪ seg tail l₂.length ∪ seg (Buffers.data B k) B)
        (do
          let b ← b.reset init B k
          pure (b, r')) m' fun r' m' => r'.1 = b.resetBuffer B k ∧
            Next l₁ l₂ dst tail (l ++ v) r'.2 ∧
        Written l₁ dst tail m' (l ++ v) ∧
        Untouched m m' (seg dst l₁.length ∪ seg tail l₂.length) := by
    intro r' m' hnext hm'
    rw [sat_bind]
    refine Buffers.sat_reset_bits.mono Set.subset_union_right ?_
    rintro b' m'' ⟨rfl, rfl⟩
    exact ⟨rfl, hnext, hm'⟩
  obtain ⟨q, rem⟩ := r
  simp only [writeBufferOf, hb.size]
  rcases hr with ⟨hl, hq, hrem⟩ | ⟨hl, hq, hrem⟩
  · dsimp only at hq hrem
    subst hq
    cases rem with
    | none =>
      have hnil : l₂ = [] := (hrem.resolve_left nofun).1
      rw [hnil, List.length_nil] at hle
      dsimp only
      rw [sat_bind]
      refine (h.sat_head l₂ hv (by omega) hdst hle).imp fun _ m' hm' =>
        hdone (.inl ⟨by omega, ?_, .inr ⟨hnil, trivial⟩⟩) hm'
      rw [hlen, Ptr.add_assoc]
    | some rem =>
      dsimp only
      by_cases hfit : v.length ≤ rem
      · have hle' : l.length + v.length ≤ l₁.length := by
          rcases hrem with hrem | ⟨hnil, -⟩
          · have := Option.some.inj hrem
            omega
          · rw [hnil, List.length_nil] at hle
            omega
        rw [if_pos hfit, sat_bind]
        refine (h.sat_head l₂ hv (by omega) hdst hle').imp fun _ m' hm' =>
          hdone (.inl ⟨by omega, ?_, ?_⟩) hm'
        · rw [hlen, Ptr.add_assoc]
        · refine hrem.imp (fun h => ?_) fun ⟨hnil, h⟩ => ⟨hnil, ?_⟩
          · have := Option.some.inj h
            exact congrArg some (by omega)
          · simp only [Option.elim_some] at h ⊢
            omega
      · have hrem' : rem = l₁.length - l.length := by
          rcases hrem with hrem | ⟨hnil, h⟩
          · exact Option.some.inj hrem
          · rw [hnil, List.length_nil] at hle
            simp only [Option.elim_some] at h
            omega
        -- the head is filled, and the others go to the tail
        have htake : (v.take rem).length = rem := List.length_take_of_le (by omega)
        have hdrop : (v.drop rem).length = v.length - rem := List.length_drop
        have hlen' : (l ++ v.take rem).length = l₁.length := by
          rw [List.length_append]
          omega
        rw [← List.take_append_drop rem v, has_append, htake] at hv
        have hhead := h.sat_head l₂ hv.1 (by omega) hdst (by omega)
        rw [htake] at hhead
        rw [if_neg hfit, sat_bind]
        refine hhead.imp ?_
        rintro _ m₁ ⟨h₁, hsame₁⟩
        have hv₁ : Has m₁ (Buffers.data B k + rem) (v.drop rem) :=
            hsame₁.has hv.2 fun i _ hmem => by
          rcases hmem with hmem | hmem
          · exact notMem_seg_of_arr (by simp [Buffers.data, hdst]) hmem
          · exact notMem_seg_of_arr (by simp [Buffers.data, htail]) hmem
        have hbehind := h₁.sat_tail hv₁ (by omega) htail hdisj (by omega) (by omega)
        rw [hlen', Nat.sub_self, hdrop, List.append_assoc, List.take_append_drop] at hbehind
        rw [sat_bind]
        refine hbehind.imp fun _ m₂ h₂ => hdone (.inr ⟨by omega, ?_, rfl⟩) ⟨h₂.1, hsame₁.trans h₂.2⟩
        rw [hlen, Ptr.add_inj]
        omega
  · dsimp only at hq hrem
    subst hq hrem
    dsimp only
    rw [sat_bind]
    refine (h.sat_tail hv (by omega) htail hdisj hl.le hle).imp fun _ m' hm' =>
      hdone (.inr ⟨by omega, ?_, rfl⟩) hm'
    rw [hlen, Ptr.add_assoc, Ptr.add_inj]
    omega

end

/-! ### Filling a bucket -/

/-- These buffers have been emptied, and the others are as they were. -/
structure Buffers.Emptied (b b' : Buffers) (B : ℕ) (R : Set ℕ) : Prop where
  stop : b'.stop = b.stop
  empty : ∀ k ∈ R, b'.size B k = 0
  other : ∀ k ∉ R, b'.ptr k = b.ptr k
  start : ∀ k ∈ R, b'.ptr k = k * B

/-- The numbers of the buffers of bucket `i` of the threads before `t`. -/
def buffersOf (kMaxBuckets i t : ℕ) : Set ℕ := {k | ∃ j < t, k = j * kMaxBuckets + i}

/-- Where buffers are. -/
def dataOf (B : ℕ) (R : Set ℕ) : Set (Loc Area) := {l | ∃ k ∈ R, l ∈ seg (Buffers.data B k) B}

/-- Where bucket `i` is. -/
def bucketRange (p : Ptr Area) (bss : ℕ → ℕ) (i : ℕ) : Set (Loc Area) :=
  seg (p + bss i) (bss (i + 1) - bss i)

section
variable {init : Bool} {B K t i : ℕ} {p : Ptr Area} {s : Margins} {m : Mem Area α} {b : Buffers}
  {r : Ptr Area × Option ℕ} {front l₁ back l₂ : List α} {buf : ℕ → List α}

theorem add_mul_inj {j j' i i' : ℕ} (hi : i < K) (hi' : i' < K) (h : j * K + i = j' * K + i') :
    j = j' ∧ i = i' := by
  have hK : 0 < K := by omega
  have h₁ : (j * K + i) / K = j := by
    rw [Nat.mul_comm, Nat.mul_add_div hK, Nat.div_eq_of_lt hi, Nat.add_zero]
  have h₂ : (j' * K + i') / K = j' := by
    rw [Nat.mul_comm, Nat.mul_add_div hK, Nat.div_eq_of_lt hi', Nat.add_zero]
  have hj : j = j' := by rw [← h₁, ← h₂, h]
  subst hj
  exact ⟨rfl, by omega⟩

theorem buffersOf_succ (u : ℕ) : buffersOf K i (u + 1) = buffersOf K i u ∪ {u * K + i} := by
  ext k
  simp only [buffersOf, Nat.lt_succ_iff_lt_or_eq, or_and_right, exists_or,
    exists_eq_left, Set.mem_union, Set.mem_singleton_iff, Set.mem_ofPred_eq]

theorem Buffers.emptied_reset {k : ℕ} (hk : b.stop k = k * B + B) :
    b.Emptied (b.resetBuffer B k) B {k} where
  stop := rfl
  empty := by
    rintro k' rfl
    exact Buffers.size_resetBuffer hk
  other _ hk' := Function.update_of_ne hk' ..
  start := by
    rintro k' rfl
    exact Function.update_self ..

theorem Buffers.Emptied.trans {b' b'' : Buffers} {R R' : Set ℕ} (h : b.Emptied b' B R)
    (h' : b'.Emptied b'' B R') : b.Emptied b'' B (R ∪ R') where
  stop := h'.stop.trans h.stop
  empty k hk := by
    by_cases hk' : k ∈ R'
    · exact h'.empty k hk'
    · rw [Buffers.size, h'.other k hk', congrFun h'.stop k]
      exact h.empty k (hk.resolve_right hk')
  other k hk := (h'.other k fun hk' => hk (.inr hk')).trans (h.other k fun hk' => hk (.inl hk'))
  start k hk := by
    by_cases hk' : k ∈ R'
    · exact h'.start k hk'
    · rw [h'.other k hk']
      exact h.start k (hk.resolve_right hk')

/-- None of them has been touched. -/
theorem Buffers.Emptied.refl {R : Set ℕ} (h : ∀ k, k ∉ R) : b.Emptied b B R where
  stop := rfl
  empty k hk := absurd hk (h k)
  other _ _ := rfl
  start k hk := absurd hk (h k)

/-- The elements of the first buffers. -/
theorem length_flatMap_range {u : ℕ} (hu : u < t) :
    ((List.range u).flatMap buf).length + (buf u).length ≤ ((List.range t).flatMap buf).length := by
  obtain ⟨d, rfl⟩ := Nat.exists_eq_add_of_lt hu
  rw [Nat.add_right_comm, List.range_add, List.range_succ, List.flatMap_append, List.flatMap_append,
    List.flatMap_singleton, List.length_append, List.length_append]
  exact Nat.le_add_right _ _

theorem Buffers.Keeps.congr {m' : Mem Area α} {b' : Buffers} {k : ℕ} {v : List α}
    (h : b.Keeps B m k v) (hptr : b'.ptr k = b.ptr k) (hstop : b'.stop = b.stop)
    {R : Set (Loc Area)} (hm : Untouched m m' R) (hR : ∀ x < B, .elem (Buffers.data B k + x) ∉ R) :
    b'.Keeps B m' k v where
  ptr := hptr.trans h.ptr
  stop := (congrFun hstop k).trans h.stop
  le := h.le
  has := hm.has h.has fun x hx => hR x (hx.trans_le h.le)

/-- **The elements of the buffers of all threads** complete a bucket whose head has been written. -/
theorem sat_writeBuffers (h : HeadFilled p (s.bucketStart i) (s.bucketStart (i + 1)) (s.write i) m r
    front l₁.length back l₂.length) (hp : p.arr = .input)
    (hi : i < K) (hb : ∀ j < t, b.Keeps B m (j * K + i) (buf j))
    (hbuf : (List.range t).flatMap buf = l₁ ++ l₂) :
    Sat (copies Area α) (bucketRange p s.bucketStart i ∪ dataOf B (buffersOf K i t))
      (Prog.loop (fun j (r : Buffers × Ptr Area × Option ℕ) =>
        writeBufferOf init B r.1 (j * K + i) r.2.1 r.2.2 (p + s.write i)) t (b, r)) m fun r' m' =>
      b.Emptied r'.1 B (buffersOf K i t) ∧ Has m' (p + s.bucketStart i)
        (front ++ (l₁ ++ (back ++ l₂))) ∧ Untouched m m' (bucketRange p s.bucketStart i) := by
  have hdst : seg r.1 l₁.length ⊆ bucketRange p s.bucketStart i := h.dst_subset
  have htail : seg (p + s.write i) l₂.length ⊆ bucketRange p s.bucketStart i := h.tail_subset
  have hdstarr : r.1.arr = .input := by
    rw [h.dst]
    exact hp
  refine (sat_loop (fun u r' m' => b.Emptied r'.1 B (buffersOf K i u) ∧
    Next l₁ l₂ r.1 (p + s.write i) ((List.range u).flatMap buf) r'.2 ∧
    Written l₁ r.1 (p + s.write i) m' ((List.range u).flatMap buf) ∧
    Untouched m m' (seg r.1 l₁.length ∪ seg (p + s.write i) l₂.length))
    ⟨?_, ?_, ?_, .refl m _⟩ ?_).imp ?_
  · exact .refl fun k ⟨j, hj, _⟩ => Nat.not_lt_zero j hj
  · exact .inl ⟨Nat.zero_le _, rfl, h.remaining.imp_right (And.imp_left List.length_eq_zero_iff.mp)⟩
  · simp only [Written, List.range_zero, List.flatMap_nil, List.take_nil, List.drop_nil]
    exact ⟨has_nil, has_nil⟩
  · rintro u hu ⟨b', r'⟩ m' ⟨hemp, hnext, hwritten, hsame⟩
    have hnot : u * K + i ∉ buffersOf K i u := by
      rintro ⟨j, hj, he⟩
      have := (add_mul_inj hi hi he).1
      omega
    have hkeeps : b'.Keeps B m' (u * K + i) (buf u) := by
      refine (hb u hu).congr (hemp.other _ hnot) hemp.stop hsame fun x _ hmem => ?_
      rcases hmem with hmem | hmem
      · exact notMem_seg_of_arr (by simp [Buffers.data, hdstarr]) hmem
      · exact notMem_seg_of_arr (by simp [Buffers.data, hp]) hmem
    have hle : ((List.range u).flatMap buf).length + (buf u).length ≤ l₁.length + l₂.length := by
      have : ((List.range u).flatMap buf).length + (buf u).length ≤
          ((List.range t).flatMap buf).length :=
        length_flatMap_range hu
      rwa [hbuf, List.length_append] at this
    refine (sat_writeBufferOf hkeeps hnext hle hwritten hdstarr hp fun x hx => h.disjoint hx).mono
      (Set.union_subset_union (Set.union_subset hdst htail) fun l hl => ⟨_, ⟨u, hu, rfl⟩, hl⟩) ?_
    rintro r'' m'' ⟨hr'', hnext', hwritten', hsame'⟩
    have hflat : (List.range (u + 1)).flatMap buf = (List.range u).flatMap buf ++ buf u := by
      rw [List.range_succ, List.flatMap_append, List.flatMap_singleton]
    rw [hflat, buffersOf_succ, hr'']
    exact ⟨hemp.trans (Buffers.emptied_reset hkeeps.stop), hnext', hwritten', hsame.trans hsame'⟩
  · rintro r' m' ⟨hemp, -, ⟨hhead, hbehind⟩, hsame⟩
    rw [hbuf, List.take_left' rfl] at hhead
    rw [hbuf, List.drop_left' rfl] at hbehind
    refine ⟨hemp, ?_, hsame.mono (Set.union_subset hdst htail)⟩
    exact h.filled rfl rfl (hsame.has h.hasFront fun x hx => h.front_notMem hx) hhead
      (hsame.has h.hasBack fun x hx => h.back_notMem hx) hbehind

end

end Ps4o.InPlace
