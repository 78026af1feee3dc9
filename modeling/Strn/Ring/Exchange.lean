import Mathlib.Data.ZMod.Basic
import Mathlib.Tactic.LinearCombination
import Mathlib.Algebra.BigOperators.Group.List
import Mathlib.Data.List.GetD

/-
  The gradient exchange of ring mode (`Worker.run_worker` in `training_sgd_allreduce.py`). The
  `W` workers stand on a ring, each receiving from its predecessor `(wrk_id - 1) % W`. A step's
  gradients are cut into `W` slices (the lists of `wrk_pkey_lists`). In the reduce-scatter loop
  (`idx < W - 1`) a worker sends slice `(wrk_id - idx) % W` and adds the slice it receives into
  slice `(send_slice_id - 1) % W`; in the all-gather loop it sends slice
  `(wrk_id + 1 - idx) % W` and replaces slice `(send_slice_id - 1) % W` with the one it
  receives.

  Here the exchange is run in lockstep (`ringLock`): at each of the `2 (W - 1)` exchanges of a
  step every worker merges its predecessor's send slice into its receive slice. The index
  arithmetic is Python's `%`, modelled by `pyMod` and worked in `ZMod W`. The main result,
  `ringLock_allreduce`, is that after both loops every worker holds, in every slice, the
  element-wise sum of that slice over all workers: after reduce-scatter exchange `j`, slice `i`
  of worker `w` holds the sum over the chain of the `d + 2` workers ending at `w`, where
  `d = (w - 1 - i) % W` is the exchange at which `w` receives it (`ringLock_reduceScatter`), so
  worker `w`'s slice `w + 1` is complete; all-gather then passes the complete slices on
  (`ringLock_allGather`).
-/

namespace Strn

/-! ## Python's `%` and the ring indices -/

/-- Python's `a % n` for `n > 0`: the representative in `[0, n)`. -/
def pyMod (a : ℤ) (n : ℕ) : ℕ := (a % n).toNat

/-- The ring predecessor `(wrk_id - 1) % wrk_num`, whose queue a worker reads. -/
def preWrk (W w : ℕ) : ℕ := pyMod ((w : ℤ) - 1) W

/-- `send_slice_id` at loop iteration `idx`, in reduce-scatter (`ag = false`) or all-gather. -/
def sendSliceId (W w idx : ℕ) : Bool → ℕ
  | false => pyMod ((w : ℤ) - idx) W
  | true => pyMod ((w : ℤ) + 1 - idx) W

/-- `recv_slice_id = (send_slice_id - 1) % ring_wrk_num`. -/
def recvSliceId (W w idx : ℕ) (ag : Bool) : ℕ := pyMod ((sendSliceId W w idx ag : ℤ) - 1) W

section Index
variable {n : ℕ} [NeZero n]

theorem pyMod_eq_val (a : ℤ) : pyMod a n = (a : ZMod n).val := by
  rw [pyMod, ← ZMod.val_intCast a, Int.toNat_natCast]

theorem pyMod_lt (a : ℤ) : pyMod a n < n := by
  rw [pyMod_eq_val]; exact ZMod.val_lt _

@[simp] theorem cast_pyMod (a : ℤ) : ((pyMod a n : ℕ) : ZMod n) = a := by
  rw [pyMod_eq_val, ZMod.natCast_zmod_val]

/-- An index below `n` is a given `pyMod` exactly when the two agree modulo `n`. -/
theorem eq_pyMod_iff {a : ℤ} {x : ℕ} (hx : x < n) : x = pyMod a n ↔ (x : ZMod n) = a := by
  rw [pyMod_eq_val]
  constructor
  · rintro rfl; exact ZMod.natCast_zmod_val _
  · intro h; rw [← h, ZMod.val_natCast_of_lt hx]

theorem pyMod_eq_iff {a : ℤ} {x : ℕ} (hx : x < n) : pyMod a n = x ↔ (a : ZMod n) = x := by
  rw [eq_comm, eq_pyMod_iff hx, eq_comm]

theorem pyMod_natCast_of_lt {x : ℕ} (hx : x < n) : pyMod x n = x := by
  rw [pyMod_eq_iff hx]; simp

theorem pyMod_congr {a b : ℤ} (h : (a : ZMod n) = b) : pyMod a n = pyMod b n := by
  rw [pyMod_eq_val, pyMod_eq_val, h]

theorem preWrk_lt (w : ℕ) : preWrk n w < n := pyMod_lt _

theorem sendSliceId_lt (w idx : ℕ) (ag : Bool) : sendSliceId n w idx ag < n := by
  cases ag <;> exact pyMod_lt _

theorem recvSliceId_lt (w idx : ℕ) (ag : Bool) : recvSliceId n w idx ag < n := pyMod_lt _

/-- Distinct workers have distinct predecessors. -/
theorem preWrk_inj {v w : ℕ} (hv : v < n) (hw : w < n) : preWrk n v = preWrk n w ↔ v = w := by
  refine ⟨fun h => ?_, congrArg _⟩
  have h' := congrArg (fun x : ℕ => (x : ZMod n)) h
  simp only [preWrk, cast_pyMod, Int.cast_sub, Int.cast_natCast, Int.cast_one, sub_left_inj] at h'
  simpa [ZMod.val_natCast_of_lt hv, ZMod.val_natCast_of_lt hw] using congrArg ZMod.val h'

/-- On a ring of at least two workers nobody is its own predecessor. -/
theorem preWrk_ne (hn : 1 < n) {w : ℕ} (hw : w < n) : preWrk n w ≠ w := by
  haveI : Fact (1 < n) := ⟨hn⟩
  rw [Ne, preWrk, pyMod_eq_iff hw]
  simp

/-- The reduce-scatter exchange at which worker `w` receives slice `i`. -/
def rsRound (n w i : ℕ) : ℕ := pyMod ((w : ℤ) - 1 - i) n

/-- How many all-gather exchanges worker `w` needs before slice `i` is complete: `0` for the
    slice it completes itself, `k` for the slice it receives at exchange `k - 1`. -/
def agRound (n w i : ℕ) : ℕ := pyMod ((w : ℤ) + 1 - i) n

/-- The predecessor sends at every exchange the slice its successor receives. -/
theorem sendSliceId_preWrk (w idx : ℕ) (ag : Bool) :
    sendSliceId n (preWrk n w) idx ag = recvSliceId n w idx ag := by
  cases ag <;> refine pyMod_congr ?_ <;> simp [preWrk, sendSliceId] <;> ring

theorem eq_recvSliceId_false_iff {w i j : ℕ} (hi : i < n) (hj : j < n) :
    i = recvSliceId n w j false ↔ rsRound n w i = j := by
  rw [recvSliceId, eq_pyMod_iff hi, rsRound, pyMod_eq_iff hj]
  simp only [sendSliceId, Int.cast_sub, Int.cast_natCast, cast_pyMod, Int.cast_one]
  constructor <;> intro h <;> linear_combination -h

theorem eq_recvSliceId_true_iff {w i j : ℕ} (hi : i < n) (hj : j + 1 < n) :
    i = recvSliceId n w j true ↔ agRound n w i = j + 1 := by
  rw [recvSliceId, eq_pyMod_iff hi, agRound, pyMod_eq_iff hj]
  simp only [sendSliceId, Int.cast_sub, Int.cast_add, Int.cast_natCast, cast_pyMod, Int.cast_one,
    Nat.cast_add, Nat.cast_one]
  constructor <;> intro h <;> linear_combination -h

theorem rsRound_preWrk {w i j : ℕ} (h : rsRound n w i = j + 1) : rsRound n (preWrk n w) i = j := by
  have hj : j + 1 < n := h ▸ pyMod_lt _
  rw [rsRound, pyMod_eq_iff (by omega)]
  rw [rsRound, pyMod_eq_iff hj] at h
  simp only [preWrk, Int.cast_sub, Int.cast_natCast, cast_pyMod, Int.cast_one] at h ⊢
  push_cast at h
  linear_combination h

theorem rsRound_preWrk_of_zero {w i : ℕ} (h : rsRound n w i = 0) :
    rsRound n (preWrk n w) i = n - 1 := by
  have hn : 0 < n := Nat.pos_of_ne_zero (NeZero.ne n)
  rw [rsRound, pyMod_eq_iff (by omega)]
  rw [rsRound, pyMod_eq_iff hn] at h
  simp only [preWrk, Int.cast_sub, Int.cast_natCast, cast_pyMod, Int.cast_one] at h ⊢
  rw [Nat.cast_sub (by omega), ZMod.natCast_self]
  push_cast at h
  linear_combination h

theorem agRound_preWrk {w i j : ℕ} (h : agRound n w i = j + 1) : agRound n (preWrk n w) i = j := by
  have hj : j + 1 < n := h ▸ pyMod_lt _
  rw [agRound, pyMod_eq_iff (by omega)]
  rw [agRound, pyMod_eq_iff hj] at h
  simp only [preWrk, Int.cast_sub, Int.cast_add, Int.cast_natCast, cast_pyMod, Int.cast_one] at h ⊢
  push_cast at h
  linear_combination h

/-- The slice a worker completes in reduce-scatter has been added to at the last exchange, so
    it holds the sum over the chain of all `n` workers. -/
theorem rsRound_of_agRound_zero {w i : ℕ} (h : agRound n w i = 0) :
    (if rsRound n w i < n - 1 then rsRound n w i + 1 else 0) = n - 1 := by
  have hn : 0 < n := Nat.pos_of_ne_zero (NeZero.ne n)
  rw [agRound, pyMod_eq_iff hn] at h
  rcases Nat.lt_or_ge n 2 with hn2 | hn2
  · have := pyMod_lt (n := n) ((w : ℤ) - 1 - i); simp only [rsRound]; split_ifs <;> omega
  · have hd : rsRound n w i = n - 2 := by
      rw [rsRound, pyMod_eq_iff (by omega)]
      rw [Nat.cast_sub hn2, ZMod.natCast_self]
      push_cast at h ⊢
      linear_combination h
    rw [hd, if_pos (by omega)]; omega

end Index

/-! ## The exchange in lockstep -/

section Lockstep
variable {α : Type} [Add α]

/-- What a worker does with the slice it receives: reduce-scatter adds it in place
    (`grad_list_to_add[i] += recv_grad_slice[i]` over its own slice), all-gather replaces its
    slice with it. -/
def mergeSlice : Bool → List α → List α → List α
  | false, own, recv => List.zipWith (· + ·) own recv
  | true, _, recv => recv

/-- Whether exchange `j` of a step (of `2 (W - 1)`) is in the all-gather loop. -/
def exchAg (W j : ℕ) : Bool := decide (W - 1 ≤ j)

/-- The loop index `idx` of exchange `j` of a step. -/
def exchIdx (W j : ℕ) : ℕ := if W - 1 ≤ j then j - (W - 1) else j

/-- The exchange in lockstep: slice `i` of worker `w` after the first `j` exchanges of a step
    whose gradients are `g w i`. At each exchange every worker merges the slice its
    predecessor sends into the slice it receives. -/
def ringLock (W : ℕ) (g : ℕ → ℕ → List α) : ℕ → ℕ → ℕ → List α
  | 0 => g
  | j + 1 => fun w i =>
    if i = recvSliceId W w (exchIdx W j) (exchAg W j) then
      mergeSlice (exchAg W j) (ringLock W g j w i)
        (ringLock W g j (preWrk W w) (sendSliceId W (preWrk W w) (exchIdx W j) (exchAg W j)))
    else ringLock W g j w i

/-- The slice a worker merges at an exchange is its predecessor's copy of the slice it
    receives (`sendSliceId_preWrk`). -/
theorem ringLock_succ {W : ℕ} [NeZero W] (g : ℕ → ℕ → List α) (j w i : ℕ) :
    ringLock W g (j + 1) w i =
      if i = recvSliceId W w (exchIdx W j) (exchAg W j) then
        mergeSlice (exchAg W j) (ringLock W g j w i) (ringLock W g j (preWrk W w) i)
      else ringLock W g j w i := by
  dsimp only [ringLock]
  split_ifs with h
  · rw [sendSliceId_preWrk, ← h]
  · rfl

/-- Every slice keeps its length through the exchange when the workers' slices agree in length. -/
theorem ringLock_length {W : ℕ} {g : ℕ → ℕ → List α} {len : ℕ → ℕ} (hW : 0 < W)
    (hg : ∀ w < W, ∀ i < W, (g w i).length = len i) :
    ∀ j, ∀ w < W, ∀ i < W, (ringLock W g j w i).length = len i := by
  haveI := NeZero.of_pos hW
  intro j
  induction j with
  | zero => exact hg
  | succ j ih =>
    intro w hw i hi
    rw [ringLock_succ]
    split_ifs
    · cases exchAg W j <;> simp [mergeSlice, ih w hw i hi, ih _ (preWrk_lt w) i hi]
    · exact ih w hw i hi

end Lockstep

/-! ## Sums along the ring -/

section Sums
variable {α : Type} [AddCommMonoid α]

/-- The element-wise sum of slices of length `len`. -/
def sliceSum (len : ℕ) (slices : List (List α)) : List α :=
  (List.range len).map fun p => (slices.map fun s => s.getD p 0).sum

/-- Slice `i` summed over the chain of the `c + 1` workers that ends at `w`. -/
def chainSum (W len : ℕ) (g : ℕ → ℕ → List α) (w i c : ℕ) : List α :=
  sliceSum len ((List.range (c + 1)).map fun m : ℕ => g (pyMod ((w : ℤ) - m) W) i)

/-- Slice `i` summed over all `W` workers. -/
def allSum (W len : ℕ) (g : ℕ → ℕ → List α) (i : ℕ) : List α :=
  sliceSum len ((List.range W).map fun w => g w i)

theorem sliceSum_perm {len : ℕ} {l₁ l₂ : List (List α)} (h : l₁.Perm l₂) :
    sliceSum len l₁ = sliceSum len l₂ := by
  simp only [sliceSum]
  exact List.map_congr_left fun p _ => (h.map _).sum_eq

variable {W : ℕ} {g : ℕ → ℕ → List α} {len : ℕ}

theorem chainSum_zero {w i : ℕ} (hw : w < W) (hlen : (g w i).length = len) :
    chainSum W len g w i 0 = g w i := by
  haveI := NeZero.of_pos (Nat.zero_lt_of_lt hw)
  refine List.ext_getElem (by simp [chainSum, sliceSum, hlen]) fun p h₁ h₂ => ?_
  simp [chainSum, sliceSum, List.range_succ, pyMod_natCast_of_lt hw, List.getElem?_eq_getElem h₂]

/-- One more worker at the start of the chain: its own slice plus the chain ending at its
    predecessor, which is the reduce-scatter addition `own += received`. -/
theorem chainSum_succ {w i c : ℕ} (hw : w < W) (hlen : (g w i).length = len) :
    chainSum W len g w i (c + 1) =
      List.zipWith (· + ·) (g w i) (chainSum W len g (preWrk W w) i c) := by
  haveI := NeZero.of_pos (Nat.zero_lt_of_lt hw)
  refine List.ext_getElem (by simp [chainSum, sliceSum, hlen]) fun p h₁ h₂ => ?_
  have hp : p < len := by simpa [chainSum, sliceSum] using h₁
  have hshift : ∀ m : ℕ, pyMod ((w : ℤ) - (m + 1 : ℕ)) W = pyMod ((preWrk W w : ℤ) - m) W :=
    fun m => pyMod_congr (by simp [preWrk]; ring)
  simp only [chainSum, sliceSum, List.getElem_map, List.getElem_range, List.getElem_zipWith]
  rw [List.range_succ_eq_map, List.map_cons, List.map_map, List.map_cons, List.sum_cons,
    List.map_map]
  simp only [Nat.cast_zero, sub_zero, pyMod_natCast_of_lt hw, Function.comp_def, Nat.succ_eq_add_one,
    hshift, List.getD_eq_getElem _ _ (hlen ▸ hp), List.map_map]

/-- The chain of all `W` workers ending anywhere is every worker once. -/
theorem chainSum_full {w i : ℕ} (hw : w < W) :
    chainSum W len g w i (W - 1) = allSum W len g i := by
  haveI := NeZero.of_pos (Nat.zero_lt_of_lt hw)
  have hperm : ((List.range W).map fun m : ℕ => pyMod ((w : ℤ) - m) W).Perm (List.range W) := by
    have hnd : ((List.range W).map fun m : ℕ => pyMod ((w : ℤ) - m) W).Nodup := by
      refine (List.nodup_range W).map_on fun a ha b hb hab => ?_
      rw [List.mem_range] at ha hb
      have h := congrArg (fun x : ℕ => (x : ZMod W)) hab
      simp only [cast_pyMod, Int.cast_sub, Int.cast_natCast, sub_right_inj] at h
      have := congrArg ZMod.val h
      rwa [ZMod.val_natCast_of_lt ha, ZMod.val_natCast_of_lt hb] at this
    refine (List.subperm_of_subset hnd fun x hx => ?_).perm_of_length_le (by simp)
    obtain ⟨m, -, rfl⟩ := List.mem_map.mp hx
    exact List.mem_range.mpr (pyMod_lt _)
  rw [chainSum, Nat.sub_add_cancel (Nat.zero_lt_of_lt hw), allSum]
  exact sliceSum_perm (by simpa [List.map_map, Function.comp_def] using hperm.map (g · i))

variable {len : ℕ → ℕ}

/-- After reduce-scatter exchange `j`, slice `i` of worker `w` holds the sum over the chain
    ending at `w` of the `d + 2` workers, where `d` is the exchange at which `w` receives it, or
    its own gradient when that exchange has not come yet. -/
theorem ringLock_reduceScatter (hW : 0 < W) (hg : ∀ w < W, ∀ i < W, (g w i).length = len i) :
    ∀ j ≤ W - 1, ∀ w < W, ∀ i < W, ringLock W g j w i =
      chainSum W (len i) g w i (if rsRound W w i < j then rsRound W w i + 1 else 0) := by
  haveI := NeZero.of_pos hW
  intro j
  induction j with
  | zero => intro _ w hw i hi; simp [ringLock, chainSum_zero hw (hg w hw i hi)]
  | succ j ih =>
    intro hj w hw i hi
    have hag : exchAg W j = false := by simp [exchAg]; omega
    have hidx : exchIdx W j = j := by simp [exchIdx]; omega
    rw [ringLock_succ, hag, hidx]
    by_cases hrecv : i = recvSliceId W w j false
    · have hd := (eq_recvSliceId_false_iff hi (by omega)).mp hrecv
      have hpre : ringLock W g j (preWrk W w) i = chainSum W (len i) g (preWrk W w) i j := by
        rw [ih (by omega) _ (preWrk_lt w) i hi]
        congr 1
        rcases j with _ | k
        · simp [rsRound_preWrk_of_zero hd]
        · simp [rsRound_preWrk hd]
      rw [if_pos hrecv, ih (by omega) w hw i hi, hd, if_neg (lt_irrefl j), if_pos (by omega),
        chainSum_zero hw (hg w hw i hi), hpre, mergeSlice, chainSum_succ hw (hg w hw i hi)]
    · have hd : rsRound W w i ≠ j := fun h => hrecv ((eq_recvSliceId_false_iff hi (by omega)).mpr h)
      rw [if_neg hrecv, ih (by omega) w hw i hi]
      congr 1
      split_ifs <;> omega

/-- After all-gather exchange `k`, every slice that needs at most `k` all-gather exchanges holds
    the sum over all workers. -/
theorem ringLock_allGather (hW : 0 < W) (hg : ∀ w < W, ∀ i < W, (g w i).length = len i) :
    ∀ k ≤ W - 1, ∀ w < W, ∀ i < W, agRound W w i ≤ k →
      ringLock W g (W - 1 + k) w i = allSum W (len i) g i := by
  haveI := NeZero.of_pos hW
  intro k
  induction k with
  | zero =>
    intro _ w hw i hi hk
    rw [Nat.add_zero, ringLock_reduceScatter hW hg (W - 1) le_rfl w hw i hi,
      rsRound_of_agRound_zero (Nat.le_zero.mp hk), chainSum_full hw]
  | succ k ih =>
    intro hk w hw i hi hki
    have hag : exchAg W (W - 1 + k) = true := by simp [exchAg]
    have hidx : exchIdx W (W - 1 + k) = k := by simp [exchIdx]
    rw [← Nat.add_assoc, ringLock_succ, hag, hidx]
    by_cases hrecv : i = recvSliceId W w k true
    · have he := (eq_recvSliceId_true_iff hi (by omega)).mp hrecv
      rw [if_pos hrecv, mergeSlice,
        ih (by omega) _ (preWrk_lt w) i hi (by rw [agRound_preWrk he])]
    · have he : agRound W w i ≠ k + 1 := fun h =>
        hrecv ((eq_recvSliceId_true_iff hi (by omega)).mpr h)
      rw [if_neg hrecv, ih (by omega) w hw i hi (by omega)]

/-- Ring all-reduce: after both loops of a step every worker holds, in every slice, the
    element-wise sum of that slice over all `W` workers. -/
theorem ringLock_allreduce (hW : 0 < W) (hg : ∀ w < W, ∀ i < W, (g w i).length = len i)
    {w i : ℕ} (hw : w < W) (hi : i < W) :
    ringLock W g (2 * (W - 1)) w i = allSum W (len i) g i := by
  haveI := NeZero.of_pos hW
  rw [two_mul]
  have hag : agRound W w i < W := pyMod_lt _
  exact ringLock_allGather hW hg (W - 1) le_rfl w hw i hi (by omega)

end Sums

end Strn
