import Strn.ParamServer.Outcome
import Strn.Ring.Termination
import Strn.Data.Loaders

/-
  When the workers of a job on partitioned data all get through `run_worker`
  (`partitioned_jobs_finish_iff`).

  With `data_partitioned`, `main` gives worker `w` a loader over entry `w` of `len_list`, and
  `run_worker` runs `epoch_num` epochs of it (`loaderIters`): `W - 1` workers get `q` items, the
  last one the rest. `stop_flag` is assigned only inside the loop over the loader, and
  `if stop_flag` after each epoch reads it, so a worker whose loader is empty raises
  `UnboundLocalError` there unless there are no epochs (`stopFlagBound`).

  Every run of either job's workers ends (`boundedReachable_acc`, `ringReachable_acc`), so from
  launch some run reaches a state where nothing can act. Where the loaders agree, such a state
  has every worker out of its loop; otherwise some worker waits forever
  (`BoundedInv.not_finished`, `RingInv.not_finished`). So every worker leaves `run_worker`
  without error, in every run, exactly when there are no epochs, or the last worker's share
  gives as many batches as `q` items do and at least one.

  As in `Outcome` and `Worker`, this is about the workers' `run_worker` calls with
  `get_stop_flag` answering `False`; it says nothing about `wait_all`, which also waits on the
  tester, nor about the shipped launch, where the parameter-server tester is never built and
  the ring workers are never started.
-/

namespace Strn

variable {ω θ γ μ α : Type}

/-! ## Loop counts from `len_list` -/

/-- Iterations of worker `w`'s loop in `run_worker`: `epoch_num` epochs of a loader over
    `lens[w]` items, which gives `batches len` batches. -/
def loaderIters (epochNum : ℕ) (batches : ℕ → ℕ) (lens : List ℤ) (w : ℕ) : ℕ :=
  epochNum * batches (lens.getD w 0).toNat

theorem lenList_getD {N W w : ℕ} (hw : w < W - 1) :
    (lenList N W).getD w 0 = (((N + W) / W : ℕ) : ℤ) := by
  have hlen : w < (List.replicate (W - 1) (((N + W) / W : ℕ) : ℤ)).length := by simpa using hw
  rw [lenList, List.getD_eq_getElem?_getD, List.getElem?_append_left hlen]
  simp [hw]

theorem lenList_getD_last (N W : ℕ) :
    (lenList N W).getD (W - 1) 0 = (N : ℤ) - ((W - 1 : ℕ) : ℤ) * ((N + W) / W : ℕ) := by
  simp [lenList, List.getD_eq_getElem?_getD, List.getElem?_append_right]

/-- Whether `run_worker` gets past its loop without error: `stop_flag` is set only by an
    iteration, and `if stop_flag` after each epoch reads it, so with at least one epoch over an
    empty loader it raises `UnboundLocalError`. -/
def stopFlagBound (epochNum : ℕ) (batches : ℕ → ℕ) (lens : List ℤ) (w : ℕ) : Prop :=
  epochNum = 0 ∨ 0 < batches (lens.getD w 0).toNat

instance (epochNum : ℕ) (batches : ℕ → ℕ) (lens : List ℤ) :
    DecidablePred (stopFlagBound epochNum batches lens) :=
  fun _ => inferInstanceAs (Decidable (_ ∨ _))

/-- All workers run as many iterations as worker `0` exactly when the last share gives as many
    batches as `q` items do, or there are no epochs. -/
theorem loaderIters_lenList_eq_iff {N W : ℕ} (hW : 2 ≤ W) (epochNum : ℕ) (batches : ℕ → ℕ) :
    (∀ v < W, loaderIters epochNum batches (lenList N W) v =
      loaderIters epochNum batches (lenList N W) 0) ↔
    (epochNum = 0 ∨ batches ((N + W) / W) =
      batches ((N : ℤ) - ((W - 1 : ℕ) : ℤ) * ((N + W) / W : ℕ)).toNat) := by
  have h0 : loaderIters epochNum batches (lenList N W) 0 = epochNum * batches ((N + W) / W) := by
    rw [loaderIters, lenList_getD (by omega), Int.toNat_ofNat]
  constructor
  · intro hall
    have hlast := hall (W - 1) (by omega)
    rw [h0, loaderIters, lenList_getD_last] at hlast
    rcases Nat.eq_zero_or_pos epochNum with hE | hE
    · exact .inl hE
    · exact .inr (Nat.eq_of_mul_eq_mul_left hE hlast).symm
  · intro hcond v hv
    rw [h0]
    by_cases hvl : v < W - 1
    · rw [loaderIters, lenList_getD hvl, Int.toNat_ofNat]
    · rw [show v = W - 1 by omega, loaderIters, lenList_getD_last]
      rcases hcond with rfl | hb
      · simp
      · rw [hb]

/-- All workers run as many iterations as worker `0` and get past their loops without error
    exactly when there are no epochs, or the last share gives as many batches as `q` items do
    and at least one. -/
theorem loaderIters_stopFlagBound_iff {N W : ℕ} (hW : 2 ≤ W) (epochNum : ℕ) (batches : ℕ → ℕ) :
    (∀ v < W, loaderIters epochNum batches (lenList N W) v =
      loaderIters epochNum batches (lenList N W) 0 ∧ stopFlagBound epochNum batches (lenList N W) v) ↔
    (epochNum = 0 ∨ batches ((N + W) / W) =
        batches ((N : ℤ) - ((W - 1 : ℕ) : ℤ) * ((N + W) / W : ℕ)).toNat ∧
      0 < batches ((N : ℤ) - ((W - 1 : ℕ) : ℤ) * ((N + W) / W : ℕ)).toNat) := by
  constructor
  · intro hall
    rcases (loaderIters_lenList_eq_iff hW epochNum batches).mp fun v hv => (hall v hv).1
      with hE | hb
    · exact .inl hE
    · have hlast := (hall (W - 1) (by omega)).2
      rw [stopFlagBound, lenList_getD_last] at hlast
      exact hlast.imp_right fun hpos => ⟨hb, hpos⟩
  · intro hcond v hv
    refine ⟨(loaderIters_lenList_eq_iff hW epochNum batches).mpr
      (hcond.imp_right fun h => h.1) v hv, ?_⟩
    rcases hcond with hE | ⟨hb, hpos⟩
    · exact .inl hE
    · refine .inr ?_
      by_cases hvl : v < W - 1
      · rwa [lenList_getD hvl, Int.toNat_ofNat, hb]
      · rwa [show v = W - 1 by omega, lenList_getD_last]

/-! ## Some run of each job reaches its end -/

/-- From an accessible state, the successor relation reaches a state with no successor. -/
theorem exists_stuck_of_acc {σ : Type} {next : σ → σ → Prop} {P : σ → Prop}
    (hP : ∀ a b, P a → next b a → P b) {a : σ} (hacc : Acc next a) (ha : P a) :
    ∃ b, P b ∧ ∀ c, ¬ next c b := by
  induction hacc with
  | intro a _ ih =>
    by_cases h : ∃ c, next c a
    · obtain ⟨c, hc⟩ := h
      exact ih c hc (hP a c ha hc)
    · push_neg at h
      exact ⟨a, ha, h⟩

section Stuck
variable [AddCommMonoid γ] [AddCommMonoid α]

theorem exists_bounded_stuck (e : Setup ω θ γ) (hW : 0 < e.workerNum) (iters : ℕ → ℕ) :
    ∃ c, BoundedReachable e iters c ∧ ∀ a, c.boundedStep e iters a = none := by
  have hinit : BoundedReachable e iters (Cluster.init e) := .init
  obtain ⟨c, hc, hno⟩ := exists_stuck_of_acc (fun _ _ hc ⟨a, ha⟩ => hc.step a ha)
    (boundedReachable_acc hW hinit) hinit
  exact ⟨c, hc, fun a => Option.eq_none_iff_forall_not_mem.mpr fun c' hc' => hno c' ⟨a, hc'⟩⟩

theorem exists_ring_stuck (e : RingSetup μ α) :
    ∃ s, RingReachable e s ∧ ∀ w < e.wrkNum, e.step s w = none := by
  have hinit : RingReachable e e.init := .init
  obtain ⟨s, hs, hno⟩ := exists_stuck_of_acc (fun _ _ hs ⟨w, hw⟩ => hs.step w hw)
    (ringReachable_acc hinit) hinit
  exact ⟨s, hs, fun w _ => Option.eq_none_iff_forall_not_mem.mpr fun s' hs' => hno s' ⟨w, hs'⟩⟩

end Stuck

/-! ## The workers finish exactly when the loaders agree -/

section Main
variable [AddCommMonoid γ] [AddCommMonoid α]

/-- The workers of jobs on partitioned data. With `W ≥ 2` workers whose loaders are built over
    `main`'s `len_list` for `N` items (`q = (N + W) // W` for each worker but the last) and run
    for `epoch_num` epochs, and with `get_stop_flag` answering `False`: in the
    parameter-server job (with at least one shard) and in the ring job, every run ends with
    every worker out of its loop and past `if stop_flag` without error exactly when
    `epoch_num = 0`, or the last worker's share gives as many batches as `q` items do and at
    least one. Otherwise some run ends with a worker still in its loop, in a deadlock, or with a
    worker whose loop ran no iteration raising `UnboundLocalError`. -/
theorem partitioned_jobs_finish_iff (N epochNum : ℕ) (batches : ℕ → ℕ) :
    (∀ e : Setup ω θ γ, 2 ≤ e.workerNum → 0 < e.init.length →
      ((∀ c, BoundedReachable e (loaderIters epochNum batches (lenList N e.workerNum)) c →
          (∀ a, c.boundedStep e (loaderIters epochNum batches (lenList N e.workerNum)) a = none) →
          ∀ (w : ℕ) wk, c.workers[w]? = some wk → wk.threads = [] ∧
            wk.iterCount = loaderIters epochNum batches (lenList N e.workerNum) w ∧
            stopFlagBound epochNum batches (lenList N e.workerNum) w) ↔
        (epochNum = 0 ∨ batches ((N + e.workerNum) / e.workerNum) =
            batches ((N : ℤ) - ((e.workerNum - 1 : ℕ) : ℤ) *
              ((N + e.workerNum) / e.workerNum : ℕ)).toNat ∧
          0 < batches ((N : ℤ) - ((e.workerNum - 1 : ℕ) : ℤ) *
              ((N + e.workerNum) / e.workerNum : ℕ)).toNat))) ∧
    (∀ r : RingSetup μ α, 2 ≤ r.wrkNum → r.iters = loaderIters epochNum batches (lenList N r.wrkNum) →
      ((∀ s, RingReachable r s → (∀ w < r.wrkNum, r.step s w = none) →
          ∀ w < r.wrkNum, (s w).pc = .finished ∧ stopFlagBound epochNum batches (lenList N r.wrkNum) w) ↔
        (epochNum = 0 ∨ batches ((N + r.wrkNum) / r.wrkNum) =
            batches ((N : ℤ) - ((r.wrkNum - 1 : ℕ) : ℤ) * ((N + r.wrkNum) / r.wrkNum : ℕ)).toNat ∧
          0 < batches ((N : ℤ) - ((r.wrkNum - 1 : ℕ) : ℤ) *
            ((N + r.wrkNum) / r.wrkNum : ℕ)).toNat))) := by
  refine ⟨fun e hW hN => ?_, fun r hW hr => ?_⟩
  · set iters := loaderIters epochNum batches (lenList N e.workerNum)
    have hW0 : 0 < e.workerNum := by omega
    rw [← loaderIters_stopFlagBound_iff hW]
    constructor
    · intro hfin v hv
      obtain ⟨c, hc, hstuck⟩ := exists_bounded_stuck e hW0 iters
      have h := boundedReachable_boundedInv hW0 hc
      have hwk : ∀ u < e.workerNum, ∃ wk, c.workers[u]? = some wk := fun u hu =>
        ⟨_, List.getElem?_eq_getElem (h.inv.workers_length ▸ hu)⟩
      obtain ⟨wv, hwv⟩ := hwk v hv
      refine ⟨?_, (hfin c hc hstuck v wv hwv).2.2⟩
      by_contra hne
      obtain ⟨u, hu, w, hw, hlt⟩ : ∃ u < e.workerNum, ∃ w < e.workerNum, iters u < iters w := by
        rcases Nat.lt_or_gt_of_ne hne with h | h
        exacts [⟨v, hv, 0, hW0, h⟩, ⟨0, hW0, v, hv, h⟩]
      obtain ⟨ww, hww⟩ := hwk w hw
      obtain ⟨hidle, hcount, -⟩ := hfin c hc hstuck w ww hww
      exact h.not_finished hN hu hlt hww ⟨hidle, hcount⟩
    · intro hall c hc hstuck w wk hw
      have h := boundedReachable_boundedInv hW0 hc
      have hwW : w < e.workerNum := h.inv.workers_length ▸ (List.getElem?_eq_some_iff.mp hw).1
      obtain ⟨hidle, hcount⟩ := h.finished_of_stuck (fun v hv => (hall v hv).1) hstuck hw
      exact ⟨hidle, hcount.trans (hall w hwW).1.symm, (hall w hwW).2⟩
  · rw [← loaderIters_stopFlagBound_iff hW, ← hr]
    constructor
    · intro hfin v hv
      obtain ⟨s, hs, hstuck⟩ := exists_ring_stuck r
      refine ⟨?_, (hfin s hs hstuck v hv).2⟩
      by_contra hne
      obtain ⟨u, hu, hlt⟩ := exists_iters_preWrk_lt ⟨v, hv, hne⟩
      exact (reachable_ringInv hs).not_finished hW hu hlt (hfin s hs hstuck u hu).1
    · intro hall s hs hstuck w hw
      exact ⟨(reachable_ringInv hs).finished_of_stuck (fun v hv => (hall v hv).1) hstuck hw,
        (hall w hw).2⟩

/-- The bert and gpt split of the BBC training set (1780 items) over two workers, one epoch
    of `drop_last` batches of two: 445 and 444 batches, so the workers of the parameter-server
    job with one shard do not all finish. And one item over two workers in the ring job: both
    loaders are empty, so although they agree every worker raises at `if stop_flag`. -/
theorem partitioned_jobs_finish_iff_bbc_split :
    let e : Setup Unit ℕ ℕ := ⟨fun o ps => (o, ps.map fun p => p.data + p.grad.getD 0),
      fun w _ m => m.map (·.map fun _ => w + 1), 2, [((), [10, 20])]⟩
    let r : RingSetup Unit ℕ := ⟨2, loaderIters 1 (dropLastBatches · 2) (lenList 1 2), fun _ => 1,
      fun w _ _ _ _ => w + 1, fun _ _ => (), ()⟩
    2 ≤ e.workerNum ∧ 0 < e.init.length ∧
      (¬ ∀ c, BoundedReachable e (loaderIters 1 (dropLastBatches · 2) (lenList 1780 e.workerNum)) c →
          (∀ a, c.boundedStep e (loaderIters 1 (dropLastBatches · 2) (lenList 1780 e.workerNum)) a =
            none) →
          ∀ (w : ℕ) wk, c.workers[w]? = some wk → wk.threads = [] ∧
            wk.iterCount = loaderIters 1 (dropLastBatches · 2) (lenList 1780 e.workerNum) w ∧
            stopFlagBound 1 (dropLastBatches · 2) (lenList 1780 e.workerNum) w) ∧
      2 ≤ r.wrkNum ∧ r.iters = loaderIters 1 (dropLastBatches · 2) (lenList 1 r.wrkNum) ∧
      ¬ ∀ s, RingReachable r s → (∀ w < r.wrkNum, r.step s w = none) →
          ∀ w < r.wrkNum, (s w).pc = .finished ∧ stopFlagBound 1 (dropLastBatches · 2) (lenList 1 r.wrkNum) w :=
  ⟨by decide, by decide,
    fun h => absurd (((partitioned_jobs_finish_iff (μ := Unit) (α := ℕ) 1780 1 (dropLastBatches · 2)).1 _
      (by decide) (by decide)).mp h) (by decide),
    by decide, rfl,
    fun h => absurd (((partitioned_jobs_finish_iff (ω := Unit) (θ := ℕ) (γ := ℕ) 1 1 (dropLastBatches · 2)).2 _
      (by decide) rfl).mp h) (by decide)⟩

end Main

end Strn
