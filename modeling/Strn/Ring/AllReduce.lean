import Strn.Ring.Termination

/-
  Ring all-reduce over any schedule (`ring_allreduce_any_schedule`) and how the workers' loops
  end (`ring_run_outcome`).

  Every state the job can reach keeps `RingInv` (`Async`): a worker takes, at every exchange,
  the slice its predecessor put in the same exchange of the same iteration, so at the update it
  holds in every slot the sum over all workers of their gradients, from the lockstep model. With
  equal loaders no run is infinite (`ringReachable_acc`) and a run stops only with every worker
  out of its loop (`RingInv.finished_of_stuck`), so every worker reaches each of its updates
  and ends with the lockstep model after all its iterations. With `W ≥ 2` and unequal loaders
  some worker never leaves its loop (`RingInv.not_finished`): every run ends in a deadlock.

  These are statements about the workers' `run_worker` calls with `get_stop_flag` answering
  `False` (`Worker`); a worker out of its loop returns, or raises `UnboundLocalError` at
  `if stop_flag` when its loader is empty.
-/

namespace Strn

variable {μ α : Type} [AddCommMonoid α]

/-- Ring all-reduce over any schedule. In every state the job can reach, whatever the
    interleaving of the workers' actions: when every loader has the same length, no run from
    here is infinite, and where no worker can act every worker has left its loop after all its
    iterations, with the lockstep model after them; the queue a worker takes from holds, in
    order, exactly the slices its predecessor put that it has not taken yet (the `n`-th slice a
    worker takes is the `n`-th its predecessor put); a waiting worker's next slice is the one
    its predecessor put in the same exchange of the same iteration; a worker about to install
    `grad_lists` at iteration `t` computed from the lockstep model after `t` steps and holds, in
    every slot, the sum over all workers of their gradients for it, each counted once; and a
    worker between iterations holds the lockstep model after the iterations it ran. So every
    worker installs the same summed gradients and steps the same model. -/
theorem ring_allreduce_any_schedule (e : RingSetup μ α) {s : ℕ → RingWorker μ α}
    (hs : RingReachable e s) :
    ((∀ v < e.wrkNum, e.iters v = e.iters 0) →
      Acc (fun s' s => ∃ w, e.step s w = some s') s ∧
      ((∀ w < e.wrkNum, e.step s w = none) → ∀ w < e.wrkNum, (s w).pc = .finished ∧
        (s w).iterCount = e.iters 0 ∧ (s w).model = e.lockModel (e.iters 0))) ∧
    (∀ v < e.wrkNum, e.gets (s v) ≤ e.puts (s (preWrk e.wrkNum v)) ∧
      (s (preWrk e.wrkNum v)).aggrMsgQ =
        (List.range' (e.gets (s v)) (e.puts (s (preWrk e.wrkNum v)) - e.gets (s v))).map
          (e.sentVal (preWrk e.wrkNum v))) ∧
    (∀ v < e.wrkNum, ∀ ag idx, (s v).pc = .recv ag idx →
      ∀ m ∈ (s (preWrk e.wrkNum v)).aggrMsgQ.head?,
        m = ringLock e.wrkNum (e.stepGrads ((s v).iterCount - 1)) (exchOf e.wrkNum ag idx)
          (preWrk e.wrkNum v) (sendSliceId e.wrkNum (preWrk e.wrkNum v) idx ag)) ∧
    (∀ w < e.wrkNum, (s w).pc = .update →
      (s w).model = e.lockModel ((s w).iterCount - 1) ∧
      (s w).gradLists = e.summedGrads ((s w).iterCount - 1) (e.lockModel ((s w).iterCount - 1))) ∧
    (∀ w < e.wrkNum, (s w).pc = .compute ∨ (s w).pc = .finished →
      (s w).model = e.lockModel (s w).iterCount) := by
  have h := reachable_ringInv hs
  refine ⟨fun hiters => ⟨ringReachable_acc hs, fun hstuck w hw => ?_⟩,
    fun v hv => ⟨(h.queue v hv).le, (h.queue v hv).msgs⟩, fun v hv ag idx hpc m hm => ?_,
    fun w hw hpc => ?_, fun w hw hpc => ?_⟩
  · have hfin := h.finished_of_stuck hiters hstuck hw
    have h2 := (h.worker w hw).2
    simp only [hfin] at h2
    have hcount : (s w).iterCount = e.iters 0 := h2.1.trans (hiters w hw)
    exact ⟨hfin, hcount, hcount ▸ h2.2⟩
  · obtain ⟨rest, hq⟩ := List.head?_eq_some_iff.mp hm
    exact (h.recv_slices hv hpc hq).2.1
  · have hin := (h.worker w hw).installing hpc
    exact ⟨hin.model, hin.gradLists.trans (ringLock_exchNum e _ hw)⟩
  · have h2 := (h.worker w hw).2
    rcases hpc with hpc | hpc <;> simp only [hpc] at h2
    exacts [h2, h2.2]

/-- Two workers with loaders of two iterations, one slot per slice, gradients `w + 1`, and a
    model that adds up the gradients it installs. Both workers run their reduce-scatter
    exchange and put their all-gather slices; worker `0` takes its slice, installs the sums
    `[[3], [3]]` and steps to model `6`, while worker `1` is about to take from worker `0`'s
    queue the summed slice `[3]`. -/
theorem ring_allreduce_any_schedule_after_exchange :
    let e : RingSetup ℕ ℕ := ⟨2, fun _ => 2, fun _ => 1, fun w _ _ _ _ => w + 1,
      fun m g => m + (g.map List.sum).sum, 0⟩
    let s := ([0, 1, 0, 1, 0, 1, 0, 1, 0, 0].foldlM e.step e.init).getD e.init
    RingReachable e s ∧
    ((∀ v < e.wrkNum, e.iters v = e.iters 0) →
      Acc (fun s' s => ∃ w, e.step s w = some s') s ∧
      ((∀ w < e.wrkNum, e.step s w = none) → ∀ w < e.wrkNum, (s w).pc = .finished ∧
        (s w).iterCount = e.iters 0 ∧ (s w).model = e.lockModel (e.iters 0))) ∧
    (∀ v < e.wrkNum, e.gets (s v) ≤ e.puts (s (preWrk e.wrkNum v)) ∧
      (s (preWrk e.wrkNum v)).aggrMsgQ =
        (List.range' (e.gets (s v)) (e.puts (s (preWrk e.wrkNum v)) - e.gets (s v))).map
          (e.sentVal (preWrk e.wrkNum v))) ∧
    (∀ v < e.wrkNum, ∀ ag idx, (s v).pc = .recv ag idx →
      ∀ m ∈ (s (preWrk e.wrkNum v)).aggrMsgQ.head?,
        m = ringLock e.wrkNum (e.stepGrads ((s v).iterCount - 1)) (exchOf e.wrkNum ag idx)
          (preWrk e.wrkNum v) (sendSliceId e.wrkNum (preWrk e.wrkNum v) idx ag)) ∧
    (∀ w < e.wrkNum, (s w).pc = .update →
      (s w).model = e.lockModel ((s w).iterCount - 1) ∧
      (s w).gradLists = e.summedGrads ((s w).iterCount - 1) (e.lockModel ((s w).iterCount - 1))) ∧
    (∀ w < e.wrkNum, (s w).pc = .compute ∨ (s w).pc = .finished →
      (s w).model = e.lockModel (s w).iterCount) :=
  ⟨RingReachable.init.foldlM _ rfl, ring_allreduce_any_schedule _ (RingReachable.init.foldlM _ rfl)⟩

/-- How the workers' loops end with unequal loaders. Whatever the interleaving: no run of the
    ring job is infinite; and with `W ≥ 2` workers and unequal loaders, some worker never leaves
    its loop in any reachable state, so every run ends in a deadlock, with no worker able to act
    and that worker still in its loop. -/
theorem ring_run_outcome (e : RingSetup μ α) :
    (∀ s, RingReachable e s → Acc (fun s' s => ∃ w, e.step s w = some s') s) ∧
    (2 ≤ e.wrkNum → (∃ u < e.wrkNum, e.iters u ≠ e.iters 0) →
      ∃ v < e.wrkNum, ∀ s, RingReachable e s → (s v).pc ≠ .finished) := by
  refine ⟨fun s hs => ringReachable_acc hs, fun hW hne => ?_⟩
  obtain ⟨v, hv, hlt⟩ := exists_iters_preWrk_lt hne
  exact ⟨v, hv, fun s hs => (reachable_ringInv hs).not_finished hW hv hlt⟩

/-- Two workers whose loaders give one iteration and none: worker `0` never finishes. -/
theorem ring_run_outcome_unequal_loaders :
    let e : RingSetup Unit ℕ := ⟨2, fun w => if w = 0 then 1 else 0, fun _ => 1,
      fun w _ _ _ _ => w + 1, fun _ _ => (), ()⟩
    2 ≤ e.wrkNum ∧ (∃ u < e.wrkNum, e.iters u ≠ e.iters 0) ∧
      ∃ v < e.wrkNum, ∀ s, RingReachable e s → (s v).pc ≠ .finished :=
  ⟨by decide, ⟨1, by decide, by decide⟩, (ring_run_outcome _).2 (by decide) ⟨1, by decide, by decide⟩⟩

end Strn
