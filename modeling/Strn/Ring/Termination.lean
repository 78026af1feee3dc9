import Strn.Ring.Bounds
import Mathlib.Algebra.Order.BigOperators.Group.List

/-
  Every run of the ring job is finite (`ringReachable_acc`), and a worker whose predecessor runs
  fewer iterations never leaves its loop (`RingInv.not_finished`).

  `rank` counts how far a worker has come through its loops: the entry of each iteration, two
  positions per exchange (before its `put` and before its `get`), and the update. Every action
  raises the acting worker's rank by at least one and leaves the others' ranks alone
  (`RingInv.rank_step`), and a worker's rank never passes `iters w · (2E + 2) + 1`
  (`RingWorkerOk.rank_le`). So what is left, summed over the workers, falls at every step, and
  no run is infinite, whatever the interleaving.

  A run ends when no worker can act. With equal loaders every worker has then left its loop
  (`RingInv.exists_step`). With `W ≥ 2` and unequal loaders some worker's predecessor runs fewer
  iterations (going round the ring gets back to the start); that worker takes slices only from
  its predecessor's queue, which never holds more than `iters(pre) · E`, fewer than the
  `iters · E` it must take to finish. So that worker never leaves its loop, and every run ends
  in a deadlock.
-/

namespace Strn

variable {μ α : Type}

/-! ## A position count that every action raises -/

section Rank
variable (e : RingSetup μ α)

/-- How far worker `wk` has come: `2E + 2` positions per iteration. -/
def RingSetup.rank (wk : RingWorker μ α) : ℕ :=
  match wk.pc with
  | .compute => wk.iterCount * (2 * e.exchNum + 2)
  | .send ag idx => (wk.iterCount - 1) * (2 * e.exchNum + 2) + 1 + 2 * exchOf e.wrkNum ag idx
  | .recv ag idx => (wk.iterCount - 1) * (2 * e.exchNum + 2) + 2 + 2 * exchOf e.wrkNum ag idx
  | .update => (wk.iterCount - 1) * (2 * e.exchNum + 2) + 1 + 2 * e.exchNum
  | .finished => wk.iterCount * (2 * e.exchNum + 2) + 1

variable {e}

/-- The position after an exchange, or at a loop's entry, is one past the exchange's `get`. -/
theorem rank_loopPc (wk : RingWorker μ α) {ag : Bool} {idx : ℕ}
    (hpc : wk.pc = loopPc e.wrkNum ag idx) (hidx : idx ≤ e.wrkNum - 1) :
    e.rank wk = (wk.iterCount - 1) * (2 * e.exchNum + 2) + 1 + 2 * exchOf e.wrkNum ag idx := by
  rcases loopPc_cases ag hidx with ⟨-, h⟩ | ⟨-, h, hk⟩ | ⟨h, hk⟩ <;>
    simp only [RingSetup.rank, hpc, h]
  · rw [hk]
  · rw [hk]; rfl

/-- Entering an iteration. -/
theorem rank_start (wk : RingWorker μ α) (g : List (List α)) :
    e.rank { wk with iterCount := wk.iterCount + 1, gradLists := g, pc := loopPc e.wrkNum false 0 } =
      wk.iterCount * (2 * e.exchNum + 2) + 1 := by
  rw [rank_loopPc _ rfl (Nat.zero_le _)]
  simp [exchOf]

/-- Leaving an exchange's `get`. -/
theorem rank_next (wk : RingWorker μ α) (g : List (List α)) {ag : Bool} {idx : ℕ}
    (hidx : idx ≤ e.wrkNum - 1) :
    e.rank { wk with gradLists := g, pc := loopPc e.wrkNum ag idx } =
      (wk.iterCount - 1) * (2 * e.exchNum + 2) + 1 + 2 * exchOf e.wrkNum ag idx :=
  rank_loopPc _ rfl hidx

end Rank

section Steps
variable [AddCommMonoid α] {e : RingSetup μ α} {s s' : ℕ → RingWorker μ α}

/-- A worker's rank stays below what its loader allows. -/
theorem RingWorkerOk.rank_le {w : ℕ} {wk : RingWorker μ α} (h : RingWorkerOk e w wk) :
    e.rank wk ≤ e.iters w * (2 * e.exchNum + 2) + 1 := by
  have hle := h.1
  have hmul : ∀ t, t ≤ e.iters w → t * (2 * e.exchNum + 2) ≤ e.iters w * (2 * e.exchNum + 2) :=
    fun t ht => Nat.mul_le_mul_right _ ht
  -- inside an iteration, the whole iteration's positions fit below the bound
  have hiter : ∀ {k : ℕ}, InStep e w k wk → (wk.iterCount - 1) * (2 * e.exchNum + 2) +
      (2 * e.exchNum + 2) ≤ e.iters w * (2 * e.exchNum + 2) := fun hin => by
    rw [← Nat.succ_mul]; exact hmul _ (by have := hin.started; omega)
  cases hpc : wk.pc with
  | compute => simp only [RingSetup.rank, hpc]; have := hmul _ hle; omega
  | send ag idx | recv ag idx =>
    obtain ⟨hidx, hin⟩ : idx < e.wrkNum - 1 ∧ InStep e w (exchOf e.wrkNum ag idx) wk :=
      h.exch (by first | exact .inl hpc | exact .inr hpc)
    have hk := exchOf_lt ag hidx
    have hsucc := hiter hin
    simp only [RingSetup.rank, hpc, RingSetup.exchNum] at hsucc ⊢
    omega
  | update =>
    have hsucc := hiter (h.installing hpc)
    simp only [RingSetup.rank, hpc]
    omega
  | finished =>
    have h2 := h.2
    simp only [hpc] at h2
    simp only [RingSetup.rank, hpc, h2.1, le_refl]

/-- Every action raises the acting worker's rank and no other. -/
theorem RingInv.rank_step (h : RingInv e s) {w : ℕ} (hs : e.step s w = some s') :
    e.rank (s w) < e.rank (s' w) ∧ ∀ v, v ≠ w → e.rank (s' v) = e.rank (s v) := by
  have hw := step_lt hs
  cases hpc : (s w).pc with
  | compute =>
    rcases step_compute hs hpc with ⟨-, rfl⟩ | ⟨-, rfl⟩
    · refine ⟨?_, fun v hv => by rw [Function.update_noteq hv]⟩
      rw [Function.update_same, rank_start]
      simp [RingSetup.rank, hpc]
    · refine ⟨?_, fun v hv => by rw [Function.update_noteq hv]⟩
      simp [RingSetup.rank, hpc]
  | send ag idx =>
    rw [step_send hs hpc]
    refine ⟨?_, fun v hv => by rw [Function.update_noteq hv]⟩
    simp [RingSetup.rank, hpc]
  | recv ag idx =>
    obtain ⟨m, rest, slice, -, -, rfl⟩ := step_recv hs hpc
    have hidx := ((h.worker w hw).exch (.inr hpc)).1
    refine ⟨?_, fun v hv => ?_⟩
    · rw [Function.update_same, rank_next _ _ (by omega)]
      simp only [RingSetup.rank, hpc, exchOf]
      omega
    · rw [Function.update_noteq hv]
      by_cases hvp : v = preWrk e.wrkNum w
      · subst hvp; rw [Function.update_same]; rfl
      · rw [Function.update_noteq hvp]
  | update =>
    rw [step_update hs hpc]
    have hin := (h.worker w hw).installing hpc
    refine ⟨?_, fun v hv => by rw [Function.update_noteq hv]⟩
    have hsucc : (s w).iterCount * (2 * e.exchNum + 2) =
        ((s w).iterCount - 1) * (2 * e.exchNum + 2) + (2 * e.exchNum + 2) := by
      rw [← Nat.succ_mul, Nat.succ_eq_add_one, Nat.sub_add_cancel hin.started]
    simp only [RingSetup.rank, hpc, Function.update_same]
    omega
  | finished => simp [step_finished hpc] at hs

variable (e)

/-- What is left of every worker's loops. -/
def RingSetup.remaining (s : ℕ → RingWorker μ α) : ℕ :=
  ((List.range e.wrkNum).map fun v => e.iters v * (2 * e.exchNum + 2) + 1 - e.rank (s v)).sum

variable {e}

theorem RingInv.remaining_lt (h : RingInv e s) {w : ℕ} (hs : e.step s w = some s') :
    e.remaining s' < e.remaining s := by
  have hw := step_lt hs
  obtain ⟨hlt, hrest⟩ := h.rank_step hs
  have hle := ((h.step hs).worker w hw).rank_le
  refine List.sum_lt_sum _ _ (fun v _ => ?_) ⟨w, List.mem_range.mpr hw, by omega⟩
  by_cases hv : v = w
  · subst hv; omega
  · rw [hrest v hv]

/-- No run is infinite: from every reachable state, every sequence of actions stops. -/
theorem ringReachable_acc (hs : RingReachable e s) :
    Acc (fun s' s => ∃ w, e.step s w = some s') s := by
  obtain ⟨n, hn⟩ : ∃ n, e.remaining s = n := ⟨_, rfl⟩
  induction n using Nat.strong_induction_on generalizing s with
  | _ n ih =>
    exact Acc.intro s fun s' ⟨w, hw⟩ =>
      ih _ (hn ▸ (reachable_ringInv hs).remaining_lt hw) (RingReachable.step w hs hw) rfl

end Steps

/-! ## A worker whose predecessor runs fewer iterations never finishes -/

section Unequal
variable [AddCommMonoid α] {e : RingSetup μ α} {s : ℕ → RingWorker μ α}

/-- A count that never falls from a worker to its predecessor is the same for all workers. -/
theorem le_of_le_preWrk {n : ℕ} {f : ℕ → ℕ} (hf : ∀ v < n, f v ≤ f (preWrk n v)) {u v : ℕ}
    (hu : u < n) (hv : v < n) : f v ≤ f u := by
  haveI : NeZero n := ⟨by omega⟩
  have hiter : ∀ d, f v ≤ f ((preWrk n)^[d] v) := by
    intro d
    induction d with
    | zero => exact le_rfl
    | succ d ih =>
      rw [Function.iterate_succ_apply']
      have hlt : (preWrk n)^[d] v < n := by rw [preWrk_iterate d hv]; exact pyMod_lt _
      exact ih.trans (hf _ hlt)
  have hd : (preWrk n)^[pyMod ((v : ℤ) - u) n] v = u := by
    rw [preWrk_iterate _ hv, pyMod_eq_iff hu]
    simp
  exact hd ▸ hiter _

omit [AddCommMonoid α] in
/-- Unequal loaders: some worker's predecessor runs fewer iterations. -/
theorem exists_iters_preWrk_lt (hne : ∃ u < e.wrkNum, e.iters u ≠ e.iters 0) :
    ∃ v < e.wrkNum, e.iters (preWrk e.wrkNum v) < e.iters v := by
  by_contra hno
  push_neg at hno
  obtain ⟨u, hu, hneq⟩ := hne
  have h0 : 0 < e.wrkNum := by omega
  exact hneq (le_antisymm (le_of_le_preWrk hno h0 hu) (le_of_le_preWrk hno hu h0))

theorem RingWorkerOk.puts_le {w : ℕ} {wk : RingWorker μ α} (h : RingWorkerOk e w wk) :
    e.puts wk ≤ e.iters w * e.exchNum := by
  by_cases hr : ∃ ag idx, wk.pc = .recv ag idx
  · obtain ⟨ag, idx, hpc⟩ := hr
    rw [puts_of_recv hpc]
    exact h.gets_lt hpc
  · push_neg at hr
    rw [puts_eq_gets hr]
    exact h.gets_mem.2.trans (Nat.mul_le_mul_right _ h.1)

/-- A worker takes at most what its predecessor puts, so it cannot finish more iterations. -/
theorem RingInv.not_finished (h : RingInv e s) (hW : 2 ≤ e.wrkNum) {v : ℕ} (hv : v < e.wrkNum)
    (hlt : e.iters (preWrk e.wrkNum v) < e.iters v) : (s v).pc ≠ .finished := by
  intro hpc
  haveI : NeZero e.wrkNum := ⟨by omega⟩
  have hgets : e.gets (s v) = e.iters v * e.exchNum := by
    rw [← puts_eq_gets (by simp [hpc]), (h.worker v hv).puts_of_finished hpc]
  have hle := (h.queue v hv).le
  have hput := (h.worker _ (preWrk_lt v)).puts_le
  have hE : 0 < e.exchNum := by simp only [RingSetup.exchNum]; omega
  have := Nat.mul_lt_mul_of_pos_right hlt hE
  omega

end Unequal

/-! ## Where a run stops with equal loaders -/

section Stuck
variable [AddCommMonoid α] {e : RingSetup μ α} {s : ℕ → RingWorker μ α}

/-- With equal loaders, where no worker can act every worker has left its loop. -/
theorem RingInv.finished_of_stuck (h : RingInv e s) (hiters : ∀ v < e.wrkNum, e.iters v = e.iters 0)
    (hstuck : ∀ w < e.wrkNum, e.step s w = none) {w : ℕ} (hw : w < e.wrkNum) :
    (s w).pc = .finished := by
  by_contra hf
  obtain ⟨v, hv, hsome⟩ := h.exists_step hiters hw hf
  simp [hstuck v hv] at hsome

end Stuck

end Strn
