import Strn.Ring.Async

/-
  How far apart the workers of the ring job can get (`ring_bounded_drift`).

  A worker takes slices only from its predecessor's queue, which holds only slices the
  predecessor has put, and a worker puts at most one slice more than it has taken. So a worker
  has taken at most `d` slices more than the worker `d` places before it on the ring
  (`RingInv.gets_le_iterate`), and, all the way round, any two workers' counts differ by at
  most `W - 1`. An iteration has `2 (W - 1)` exchanges, so no worker is more than one
  iteration ahead of another, and no `aggr_msg_q` ever holds more than `W` slices, although
  the queues are unbounded.
-/

namespace Strn

/-! ## Walking back along the ring -/

section Ring
variable {n : ℕ} [NeZero n]

/-- `d` steps back from `v`. -/
theorem preWrk_iterate (d : ℕ) {v : ℕ} (hv : v < n) :
    (preWrk n)^[d] v = pyMod ((v : ℤ) - d) n := by
  induction d with
  | zero => simp [pyMod_natCast_of_lt hv]
  | succ d ih =>
    rw [Function.iterate_succ_apply', ih, preWrk]
    refine pyMod_congr ?_
    simp only [Int.cast_sub, Int.cast_natCast, cast_pyMod, Int.cast_one, Nat.cast_succ,
      Int.cast_add]
    ring

/-- The worker after `u` has `u` as its predecessor. -/
theorem preWrk_succ {u : ℕ} (hu : u < n) : preWrk n (pyMod ((u : ℤ) + 1) n) = u := by
  rw [preWrk, pyMod_eq_iff hu]
  simp

end Ring

/-! ## Counts along the ring -/

section Counts
variable {μ α : Type} [AddCommMonoid α] {e : RingSetup μ α} {s : ℕ → RingWorker μ α}

omit [AddCommMonoid α] in
theorem puts_le_gets_succ (wk : RingWorker μ α) : e.puts wk ≤ e.gets wk + 1 := by
  unfold RingSetup.puts
  split <;> omega

/-- Where a worker is bounds what it has taken: between `iter_count - 1` and `iter_count`
    iterations' worth. -/
theorem RingWorkerOk.gets_mem {w : ℕ} {wk : RingWorker μ α} (h : RingWorkerOk e w wk) :
    (wk.iterCount - 1) * e.exchNum ≤ e.gets wk ∧ e.gets wk ≤ wk.iterCount * e.exchNum := by
  have hle : (wk.iterCount - 1) * e.exchNum ≤ wk.iterCount * e.exchNum :=
    Nat.mul_le_mul_right _ (Nat.sub_le _ _)
  cases hpc : wk.pc with
  | compute | update | finished => simp only [RingSetup.gets, hpc]; omega
  | send ag idx | recv ag idx =>
    obtain ⟨hidx, hin⟩ : idx < e.wrkNum - 1 ∧ InStep e w (exchOf e.wrkNum ag idx) wk :=
      h.exch (by first | exact .inl hpc | exact .inr hpc)
    have hk : exchOf e.wrkNum ag idx < e.exchNum := exchOf_lt ag hidx
    have hsucc : wk.iterCount * e.exchNum = (wk.iterCount - 1) * e.exchNum + e.exchNum := by
      rw [← Nat.succ_mul, Nat.succ_eq_add_one, Nat.sub_add_cancel hin.started]
    simp only [RingSetup.gets, hpc]
    omega

theorem RingInv.gets_le_pre (h : RingInv e s) {v : ℕ} (hv : v < e.wrkNum) :
    e.gets (s v) ≤ e.gets (s (preWrk e.wrkNum v)) + 1 :=
  (h.queue v hv).le.trans (puts_le_gets_succ _)

/-- A worker has taken at most `d` slices more than the worker `d` places before it. -/
theorem RingInv.gets_le_iterate (h : RingInv e s) {v : ℕ} (hv : v < e.wrkNum) (d : ℕ) :
    e.gets (s v) ≤ e.gets (s ((preWrk e.wrkNum)^[d] v)) + d := by
  haveI : NeZero e.wrkNum := ⟨by omega⟩
  induction d with
  | zero => simp
  | succ d ih =>
    rw [Function.iterate_succ_apply']
    have hlt : (preWrk e.wrkNum)^[d] v < e.wrkNum := by rw [preWrk_iterate d hv]; exact pyMod_lt _
    have := h.gets_le_pre hlt
    omega

/-- Any two workers' counts of taken slices differ by at most `W - 1`. -/
theorem RingInv.gets_le_gets (h : RingInv e s) {u v : ℕ} (hu : u < e.wrkNum) (hv : v < e.wrkNum) :
    e.gets (s v) ≤ e.gets (s u) + (e.wrkNum - 1) := by
  haveI : NeZero e.wrkNum := ⟨by omega⟩
  have hd : (preWrk e.wrkNum)^[pyMod ((v : ℤ) - u) e.wrkNum] v = u := by
    rw [preWrk_iterate _ hv, pyMod_eq_iff hu]
    simp
  have hle := h.gets_le_iterate hv (pyMod ((v : ℤ) - u) e.wrkNum)
  rw [hd] at hle
  have := pyMod_lt (n := e.wrkNum) ((v : ℤ) - u)
  omega

end Counts

/-! ## Bounded drift -/

section Main
variable {μ α : Type} [AddCommMonoid α]

/-- Bounded queues and bounded drift. In every state the ring job can reach, whatever the
    interleaving: every `aggr_msg_q` holds at most `W` slices; any two workers' counts of
    slices taken differ by at most `W - 1`; and no worker has started more than one iteration
    more than another. -/
theorem ring_bounded_drift (e : RingSetup μ α) {s : ℕ → RingWorker μ α} (hs : RingReachable e s) :
    (∀ u < e.wrkNum, (s u).aggrMsgQ.length ≤ e.wrkNum) ∧
    (∀ u < e.wrkNum, ∀ v < e.wrkNum, e.gets (s v) ≤ e.gets (s u) + (e.wrkNum - 1)) ∧
    (∀ u < e.wrkNum, ∀ v < e.wrkNum, (s v).iterCount ≤ (s u).iterCount + 1) := by
  have h := reachable_ringInv hs
  refine ⟨fun u hu => ?_, fun u hu v hv => h.gets_le_gets hu hv, fun u hu v hv => ?_⟩
  · haveI : NeZero e.wrkNum := ⟨by omega⟩
    set v := pyMod ((u : ℤ) + 1) e.wrkNum
    have hv : v < e.wrkNum := pyMod_lt _
    have hq := h.queue v hv
    rw [preWrk_succ hu] at hq
    have hlen : (s u).aggrMsgQ.length = e.puts (s u) - e.gets (s v) := by simp [hq.msgs]
    have := h.gets_le_gets hv hu
    have := puts_le_gets_succ (e := e) (s u)
    omega
  · have hv' := (h.worker v hv).gets_mem
    have hu' := (h.worker u hu).gets_mem
    have hg := h.gets_le_gets hu hv
    rcases Nat.lt_or_ge e.wrkNum 2 with hW | hW
    · obtain rfl : v = u := by omega
      omega
    · have hE : e.wrkNum - 1 < e.exchNum := by simp only [RingSetup.exchNum]; omega
      have hlt : ((s v).iterCount - 1) * e.exchNum < ((s u).iterCount + 1) * e.exchNum := by
        rw [Nat.succ_mul]; omega
      have := Nat.lt_of_mul_lt_mul_right hlt
      omega

/-- Two workers with loaders of two iterations: both run the first iteration's reduce-scatter
    exchange and put their all-gather slices; worker `0` takes its slice, steps, starts its
    second iteration and puts its first slice, while worker `1` still waits for its all-gather
    slice. Worker `0`'s queue then holds
    `W = 2` slices, worker `0` has taken one slice more than worker `1`, and it has started one
    iteration more: all three bounds are reached. -/
theorem ring_bounded_drift_ahead :
    let e : RingSetup ℕ ℕ := ⟨2, fun _ => 2, fun _ => 1, fun w _ _ _ _ => w + 1,
      fun m g => m + (g.map List.sum).sum, 0⟩
    let s := ([0, 1, 0, 1, 0, 1, 0, 1, 0, 0, 0, 0].foldlM e.step e.init).getD e.init
    RingReachable e s ∧
    (∀ u < e.wrkNum, (s u).aggrMsgQ.length ≤ e.wrkNum) ∧
    (∀ u < e.wrkNum, ∀ v < e.wrkNum, e.gets (s v) ≤ e.gets (s u) + (e.wrkNum - 1)) ∧
    (∀ u < e.wrkNum, ∀ v < e.wrkNum, (s v).iterCount ≤ (s u).iterCount + 1) :=
  ⟨RingReachable.init.foldlM _ rfl, ring_bounded_drift _ (RingReachable.init.foldlM _ rfl)⟩

end Main

end Strn
