import Mathlib.Algebra.BigOperators.Group.List
import Mathlib.Data.List.GetD

/-
  One parameter-server shard (`ParameterServer` in `training_sgd.py`, parameter-server mode).
  Each RPC runs `ps_computing` under `sync_lock`, so a shard is a state machine whose steps are
  whole calls: `ps_computing` adds a worker's gradients to the parameters' `.grad`, counts the
  contribution and, in async mode or once `worker_num` contributions are in, runs
  `optimizer.step()`, clears the gradients, completes the round's future with the parameters
  and opens a new future. `set_sync_mode` changes the mode between calls.

  What is kept of each object. A parameter is its value and its `.grad`. The optimizer (SGD with
  momentum, or Adam) is an abstract `optStep` from its state and the parameters, gradients
  included, to a new state and new values. A future is a number: the shard creates them one
  after another, the first in `__init__`, and `futureResults` holds the value each was completed
  with. Timing fields, `epoch_iter_idx_count`, the worker id (read only for those) and logging
  are left out: nothing modelled reads them.
-/

namespace Strn

/-- A shard parameter: its value and `param.grad` (`None` until a gradient arrives). -/
structure Param (θ γ : Type) where
  data : θ
  grad : Option γ
deriving DecidableEq

/-- What `ps_computing`, `set_sync_mode` and `get_step_num` read and write. -/
structure ParameterServer (ω θ γ : Type) where
  workerNum : ℕ
  syncMode : ℤ
  syncWorkerCount : ℕ
  stepNum : ℕ
  psParams : List (Param θ γ)
  optimizer : ω
  psCompFuture : ℕ
  futureResults : ℕ → Option (List θ)

/-- The reply of `ps_computing`: the future `ft` it returns, and the value `ft.set_result` gave
    it when this call ran the optimizer. -/
structure Reply (θ : Type) where
  future : ℕ
  resolved : Option (List θ)
deriving DecidableEq

/-- The calls a shard serves, one at a time under its lock. -/
inductive PsOp (γ : Type)
  | psComputing (gradients : List γ)
  | setSyncMode (syncMode : ℤ)

variable {ω θ γ : Type}

/-- `__init__`: every `param.grad = None`, sync mode, counters at zero and a first future. -/
def ParameterServer.init (workerNum : ℕ) (psParams : List θ) (optimizer : ω) :
    ParameterServer ω θ γ where
  workerNum := workerNum
  syncMode := 0
  syncWorkerCount := 0
  stepNum := 0
  psParams := psParams.map (⟨·, none⟩)
  optimizer := optimizer
  psCompFuture := 0
  futureResults := fun _ => none

/-- `set_sync_mode`: any value is stored; `ps_computing` runs async only when it is `1`. -/
def ParameterServer.setSyncMode (s : ParameterServer ω θ γ) (syncMode : ℤ) :
    ParameterServer ω θ γ :=
  { s with syncMode := syncMode }

/-- `get_step_num`. -/
def ParameterServer.getStepNum (s : ParameterServer ω θ γ) : ℕ := s.stepNum

/-! ## `ps_computing` -/

section Computing
variable [Add γ] (optStep : ω → List (Param θ γ) → ω × List θ)

/-- `param.grad = grad` when `param.grad is None`, else `param.grad += grad`. -/
def addGrad : Option γ → γ → Option γ
  | none, g => some g
  | some a, g => some (a + g)

/-- `for param, grad in zip(self.ps_params, gradients)`: `zip` stops at the shorter list. -/
def accumulateGrads : List (Param θ γ) → List γ → List (Param θ γ)
  | p :: ps, g :: gs => ⟨p.data, addGrad p.grad g⟩ :: accumulateGrads ps gs
  | [], _ => []
  | ps@(_ :: _), [] => ps

/-- `ps_computing` under `sync_lock`, with `optStep` for `self.optimizer.step()`. -/
def ParameterServer.psComputing (s : ParameterServer ω θ γ) (gradients : List γ) :
    ParameterServer ω θ γ × Reply θ :=
  let syncMode := s.syncMode
  let s := { s with
    stepNum := s.stepNum + 1
    psParams := accumulateGrads s.psParams gradients
    syncWorkerCount := s.syncWorkerCount + 1 }
  let ft := s.psCompFuture
  if syncMode = 1 ∨ s.workerNum ≤ s.syncWorkerCount then
    let stepped := optStep s.optimizer s.psParams
    ({ s with
        optimizer := stepped.1
        psParams := stepped.2.map (⟨·, none⟩)
        syncWorkerCount := 0
        futureResults := Function.update s.futureResults ft (some stepped.2)
        psCompFuture := ft + 1 }, ⟨ft, some stepped.2⟩)
  else (s, ⟨ft, none⟩)

/-- One call served: the new state, and the reply when it was `ps_computing`. -/
def ParameterServer.apply (s : ParameterServer ω θ γ) :
    PsOp γ → ParameterServer ω θ γ × Option (Reply θ)
  | .psComputing g => ((s.psComputing optStep g).1, some (s.psComputing optStep g).2)
  | .setSyncMode m => (s.setSyncMode m, none)

/-- Calls served one after another: the final state and the replies of the `ps_computing`
    calls, in order. -/
def ParameterServer.run (s : ParameterServer ω θ γ) :
    List (PsOp γ) → ParameterServer ω θ γ × List (Reply θ)
  | [] => (s, [])
  | op :: ops =>
    (((s.apply optStep op).1.run ops).1,
      (s.apply optStep op).2.toList ++ ((s.apply optStep op).1.run ops).2)

end Computing

/-- The gradient lists of the `ps_computing` calls among `ops`, in order. -/
def contributions : List (PsOp γ) → List (List γ)
  | [] => []
  | .psComputing g :: ops => g :: contributions ops
  | .setSyncMode _ :: ops => contributions ops

/-- The values the steps among `replies` completed their futures with, in order. -/
def stepValues (replies : List (Reply θ)) : List (List θ) := replies.filterMap Reply.resolved

/-! ## What one call does -/

section Lemmas
variable [Add γ] (optStep : ω → List (Param θ γ) → ω × List θ)

@[simp] theorem accumulateGrads_length (ps : List (Param θ γ)) (gs : List γ) :
    (accumulateGrads ps gs).length = ps.length := by
  induction ps, gs using accumulateGrads.induct <;> simp [accumulateGrads, *]

@[simp] theorem accumulateGrads_data (ps : List (Param θ γ)) (gs : List γ) :
    (accumulateGrads ps gs).map Param.data = ps.map Param.data := by
  induction ps, gs using accumulateGrads.induct <;> simp [accumulateGrads, *]

/-- Position `p` of the gradients after the loop: `addGrad` of entry `p` of `gradients` when
    there is one, else unchanged. -/
theorem accumulateGrads_grad_getElem? (ps : List (Param θ γ)) (gs : List γ) (p : ℕ) :
    ((accumulateGrads ps gs).map Param.grad)[p]? =
      ((ps.map Param.grad)[p]?).map fun o => (gs[p]?).elim o (addGrad o) := by
  induction ps, gs using accumulateGrads.induct generalizing p with
  | case1 q ps g gs ih => cases p <;> simp [accumulateGrads, ih]
  | case2 gs => simp [accumulateGrads]
  | case3 q ps => simp [accumulateGrads]

/-- Everything `ps_computing` does, for the two outcomes of its test. -/
theorem psComputing_eq (s : ParameterServer ω θ γ) (g : List γ) :
    s.psComputing optStep g =
      if s.syncMode = 1 ∨ s.workerNum ≤ s.syncWorkerCount + 1 then
        ({ s with
            stepNum := s.stepNum + 1
            optimizer := (optStep s.optimizer (accumulateGrads s.psParams g)).1
            psParams := (optStep s.optimizer (accumulateGrads s.psParams g)).2.map (⟨·, none⟩)
            syncWorkerCount := 0
            futureResults := Function.update s.futureResults s.psCompFuture
              (some (optStep s.optimizer (accumulateGrads s.psParams g)).2)
            psCompFuture := s.psCompFuture + 1 },
          ⟨s.psCompFuture, some (optStep s.optimizer (accumulateGrads s.psParams g)).2⟩)
      else
        ({ s with
            stepNum := s.stepNum + 1
            psParams := accumulateGrads s.psParams g
            syncWorkerCount := s.syncWorkerCount + 1 }, ⟨s.psCompFuture, none⟩) := rfl

@[simp] theorem psComputing_workerNum (s : ParameterServer ω θ γ) (g : List γ) :
    (s.psComputing optStep g).1.workerNum = s.workerNum := by
  rw [psComputing_eq]; split_ifs <;> rfl

@[simp] theorem psComputing_syncMode (s : ParameterServer ω θ γ) (g : List γ) :
    (s.psComputing optStep g).1.syncMode = s.syncMode := by
  rw [psComputing_eq]; split_ifs <;> rfl

@[simp] theorem psComputing_stepNum (s : ParameterServer ω θ γ) (g : List γ) :
    (s.psComputing optStep g).1.stepNum = s.stepNum + 1 := by
  rw [psComputing_eq]; split_ifs <;> rfl

@[simp] theorem psComputing_future (s : ParameterServer ω θ γ) (g : List γ) :
    (s.psComputing optStep g).2.future = s.psCompFuture := by
  rw [psComputing_eq]; split_ifs <;> rfl

/-- The call runs the optimizer exactly in async mode or when its contribution completes the
    round. -/
theorem psComputing_resolved_isSome (s : ParameterServer ω θ γ) (g : List γ) :
    (s.psComputing optStep g).2.resolved.isSome ↔
      s.syncMode = 1 ∨ s.workerNum ≤ s.syncWorkerCount + 1 := by
  rw [psComputing_eq]; split_ifs with h <;> simp [h]

/-- A step completes the round's future with the parameter values right after it, and opens
    the next future. -/
theorem psComputing_futures (s : ParameterServer ω θ γ) (g : List γ) :
    (s.psComputing optStep g).1.psCompFuture =
        s.psCompFuture + (stepValues [(s.psComputing optStep g).2]).length ∧
      (s.psComputing optStep g).1.futureResults =
        ((s.psComputing optStep g).2.resolved.elim s.futureResults fun v =>
          Function.update s.futureResults s.psCompFuture (some v)) ∧
      ∀ v, (s.psComputing optStep g).2.resolved = some v →
        v = (s.psComputing optStep g).1.psParams.map Param.data := by
  rw [psComputing_eq]; split_ifs <;> simp [stepValues, Function.comp_def]

@[simp] theorem apply_psComputing (s : ParameterServer ω θ γ) (g : List γ) :
    s.apply optStep (.psComputing g) =
      ((s.psComputing optStep g).1, some (s.psComputing optStep g).2) := rfl

@[simp] theorem apply_setSyncMode (s : ParameterServer ω θ γ) (m : ℤ) :
    s.apply optStep (.setSyncMode m) = (s.setSyncMode m, none) := rfl

@[simp] theorem apply_workerNum (s : ParameterServer ω θ γ) (op : PsOp γ) :
    (s.apply optStep op).1.workerNum = s.workerNum := by
  cases op <;> simp [ParameterServer.setSyncMode]

@[simp] theorem run_nil (s : ParameterServer ω θ γ) : s.run optStep [] = (s, []) := rfl

theorem run_cons (s : ParameterServer ω θ γ) (op : PsOp γ) (ops : List (PsOp γ)) :
    s.run optStep (op :: ops) =
      (((s.apply optStep op).1.run optStep ops).1,
        (s.apply optStep op).2.toList ++ ((s.apply optStep op).1.run optStep ops).2) := rfl

theorem run_append (s : ParameterServer ω θ γ) (ops₁ ops₂ : List (PsOp γ)) :
    s.run optStep (ops₁ ++ ops₂) =
      (((s.run optStep ops₁).1.run optStep ops₂).1,
        (s.run optStep ops₁).2 ++ ((s.run optStep ops₁).1.run optStep ops₂).2) := by
  induction ops₁ generalizing s with
  | nil => simp
  | cons op ops ih => simp [run_cons, ih]

@[simp] theorem run_workerNum (s : ParameterServer ω θ γ) (ops : List (PsOp γ)) :
    (s.run optStep ops).1.workerNum = s.workerNum := by
  induction ops generalizing s with
  | nil => rfl
  | cons op ops ih => simp [run_cons, ih]

@[simp] theorem stepValues_nil : stepValues ([] : List (Reply θ)) = [] := rfl

@[simp] theorem stepValues_append (rs₁ rs₂ : List (Reply θ)) :
    stepValues (rs₁ ++ rs₂) = stepValues rs₁ ++ stepValues rs₂ := List.filterMap_append _ _ _

@[simp] theorem stepValues_cons (r : Reply θ) (rs : List (Reply θ)) :
    stepValues (r :: rs) = r.resolved.toList ++ stepValues rs := by
  cases h : r.resolved <;> simp [stepValues, h]

end Lemmas

end Strn
