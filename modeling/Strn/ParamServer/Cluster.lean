import Strn.ParamServer.Lifecycle
import Strn.Schedule

/-
  The parameter-server job in sync mode: `worker_num` workers (`Worker.run_worker`) and one
  shard (`ParameterServer`) per part of the partition, each a separate process. An iteration of
  a worker computes the gradient of its batch on its model, scatters it into `grad_lists` by
  shard, and starts one thread per shard (`run_ps_computing`) that calls `ps_computing` on the
  shard with `rpc_sync` and, once the shard's future is completed, stores the returned
  parameters in `param_lists[ps_id]`; after joining the threads the worker copies `param_lists`
  into its model.

  The cluster is a state machine whose steps are those actions, one at a time and in any order
  the processes allow (`Cluster.step`, `Reachable`): a worker starting an iteration, a shard
  serving one `ps_computing` call, a thread taking its reply, a worker joining its threads. A
  worker's model is kept split by shard, as `grad_lists` and `param_lists` are (the layout of
  `Partition`, proved in `Layout`); `compute w t m` is worker `w`'s gradient, by shard, at its
  iteration `t` with model `m`, standing for its batch and the forward and backward pass. In
  the code `param_lists` and `grad_lists` are one buffer; every entry the join reads was
  replaced by a reply in the same iteration, so here they are two fields. `Cluster.step` puts
  no bound on a worker's iterations: its runs contain the runs of every loader, so what holds in
  all its reachable states holds in the job whatever the loaders (`BoundedReachable.reachable`,
  in `Outcome`); how the loops end is studied on `Cluster.boundedStep`.

  `lockstep` is what the job is for: synchronous data-parallel SGD, where at step `t` every
  worker computes its gradient from the same parameters and every shard steps once on the sum
  of the `worker_num` gradients for its parameters.
-/

namespace Strn

/-! ## Workers and the cluster -/

/-- One of a worker's `run_ps_computing` threads in the current iteration. -/
inductive Call
  | pending
  | waiting (ft : ℕ)
  | done
deriving DecidableEq

/-- A worker: the iterations it has started (`iter_count`), its model split by shard, the
    `param_lists` and `grad_lists` buffers, and its threads (none between iterations). -/
structure WorkerState (θ γ : Type) where
  iterCount : ℕ
  model : List (List θ)
  paramLists : List (List θ)
  gradLists : List (List γ)
  threads : List Call

/-- The shards and the workers. -/
structure Cluster (ω θ γ : Type) where
  shards : List (ParameterServer ω θ γ)
  workers : List (WorkerState θ γ)

/-- What the job runs with: the optimizer step, the workers' gradients, the number of workers,
    and each shard's initial optimizer state and parameters (the model's, split by shard). -/
structure Setup (ω θ γ : Type) where
  optStep : ω → List (Param θ γ) → ω × List θ
  compute : ℕ → ℕ → List (List θ) → List (List γ)
  workerNum : ℕ
  init : List (ω × List θ)

/-- The processes' actions: worker `w` starts an iteration; the `ps_computing` call of worker
    `w`'s thread for shard `j` is served; that thread takes its reply; worker `w` joins its
    threads and copies `param_lists` into its model. -/
inductive Actor
  | iterate (w : ℕ)
  | call (w j : ℕ)
  | reply (w j : ℕ)
  | gather (w : ℕ)

variable {ω θ γ : Type}

section Model
variable [Add γ]

/-- The job at launch: every shard from `__init__`, every worker before its first iteration
    with the model the manager sent (`param_or_grad_lists` holds `None`s, here empty lists). -/
def Cluster.init (e : Setup ω θ γ) : Cluster ω θ γ where
  shards := e.init.map fun st => ParameterServer.init e.workerNum st.2 st.1
  workers := List.replicate e.workerNum
    ⟨0, e.init.map Prod.snd, e.init.map fun _ => [], e.init.map fun _ => [], []⟩

/-- One action, or `none` when the process cannot take it. -/
def Cluster.step (e : Setup ω θ γ) (c : Cluster ω θ γ) : Actor → Option (Cluster ω θ γ)
  | .iterate w =>
    match c.workers[w]? with
    | some wk =>
      if wk.threads = [] then
        some { c with workers := c.workers.set w { wk with
          iterCount := wk.iterCount + 1
          gradLists := e.compute w wk.iterCount wk.model
          threads := List.replicate c.shards.length .pending } }
      else none
    | none => none
  | .call w j =>
    match c.workers[w]?, c.shards[j]? with
    | some wk, some s =>
      if wk.threads[j]? = some .pending then
        let r := s.psComputing e.optStep (wk.gradLists.getD j [])
        some ⟨c.shards.set j r.1,
          c.workers.set w { wk with threads := wk.threads.set j (.waiting r.2.future) }⟩
      else none
    | _, _ => none
  | .reply w j =>
    match c.workers[w]?, c.shards[j]? with
    | some wk, some s =>
      match wk.threads[j]? with
      | some (.waiting ft) =>
        match s.futureResults ft with
        | some v => some { c with workers := c.workers.set w { wk with
            paramLists := wk.paramLists.set j v
            threads := wk.threads.set j .done } }
        | none => none
      | _ => none
    | _, _ => none
  | .gather w =>
    match c.workers[w]? with
    | some wk =>
      if wk.threads ≠ [] ∧ ∀ t ∈ wk.threads, t = .done then
        some { c with workers := c.workers.set w { wk with model := wk.paramLists, threads := [] } }
      else none
    | none => none

/-- The states the job can reach, in any interleaving of the processes' actions. -/
inductive Reachable (e : Setup ω θ γ) : Cluster ω θ γ → Prop
  | init : Reachable e (Cluster.init e)
  | step {c c' : Cluster ω θ γ} (a : Actor) : Reachable e c → c.step e a = some c' →
      Reachable e c'

/-- A schedule of actions taken one after another from a reachable state, as long as each can
    be taken, ends in a reachable state. -/
theorem Reachable.foldlM {e : Setup ω θ γ} {c : Cluster ω θ γ} (hc : Reachable e c)
    (as : List Actor) (h : (as.foldlM (Cluster.step e) c).isSome) :
    Reachable e ((as.foldlM (Cluster.step e) c).getD c) :=
  foldlM_getD_of_step Reachable.step hc as h

/-- Synchronous data-parallel SGD: each shard's optimizer state and values after `t` steps,
    where step `t` applies the optimizer to the sum, over the `worker_num` workers, of each
    worker's gradient at step `t` from the same parameters. -/
def Setup.lockstep (e : Setup ω θ γ) : ℕ → List (ω × List θ)
  | 0 => e.init
  | t + 1 =>
    let prev := e.lockstep t
    prev.mapIdx fun j st => e.optStep st.1 (List.zipWith Param.mk st.2 (roundGrads st.2.length
      ((List.range e.workerNum).map fun w => (e.compute w t (prev.map Prod.snd)).getD j [])))

/-- The parameters after `t` lockstep steps, split by shard. -/
def Setup.params (e : Setup ω θ γ) (t : ℕ) : List (List θ) := (e.lockstep t).map Prod.snd

/-- Worker `w`'s gradient for shard `j` at lockstep step `t`. -/
def Setup.grad (e : Setup ω θ γ) (w t j : ℕ) : List γ := (e.compute w t (e.params t)).getD j []

@[simp] theorem lockstep_length (e : Setup ω θ γ) (t : ℕ) : (e.lockstep t).length = e.init.length := by
  induction t with
  | zero => rfl
  | succ t ih => simp [Setup.lockstep, ih]

theorem lockstep_succ_getElem? (e : Setup ω θ γ) (t j : ℕ) :
    (e.lockstep (t + 1))[j]? = (e.lockstep t)[j]?.map fun st => e.optStep st.1
      (List.zipWith Param.mk st.2 (roundGrads st.2.length
        ((List.range e.workerNum).map fun w => e.grad w t j))) := by
  simp [Setup.lockstep, Setup.grad, Setup.params]

/-! ## What each action does -/

variable {e : Setup ω θ γ}

theorem step_iterate {c c' : Cluster ω θ γ} {w : ℕ} (h : c.step e (.iterate w) = some c') :
    ∃ wk, c.workers[w]? = some wk ∧ wk.threads = [] ∧
      c' = { c with workers := c.workers.set w { wk with
        iterCount := wk.iterCount + 1
        gradLists := e.compute w wk.iterCount wk.model
        threads := List.replicate c.shards.length .pending } } := by
  simp only [Cluster.step] at h
  split at h
  · split_ifs at h with h1
    exact ⟨_, ‹_›, h1, (Option.some.inj h).symm⟩
  · cases h

theorem step_call {c c' : Cluster ω θ γ} {w j : ℕ} (h : c.step e (.call w j) = some c') :
    ∃ wk s, c.workers[w]? = some wk ∧ c.shards[j]? = some s ∧ wk.threads[j]? = some .pending ∧
      c' = ⟨c.shards.set j (s.psComputing e.optStep (wk.gradLists.getD j [])).1,
        c.workers.set w { wk with threads := wk.threads.set j (.waiting s.psCompFuture) }⟩ := by
  simp only [Cluster.step] at h
  split at h
  · split_ifs at h with h1
    cases h
    exact ⟨_, _, ‹_›, ‹_›, h1, by rw [psComputing_future]⟩
  · cases h

theorem step_reply {c c' : Cluster ω θ γ} {w j : ℕ} (h : c.step e (.reply w j) = some c') :
    ∃ wk s ft v, c.workers[w]? = some wk ∧ c.shards[j]? = some s ∧
      wk.threads[j]? = some (.waiting ft) ∧ s.futureResults ft = some v ∧
      c' = { c with workers := c.workers.set w { wk with
        paramLists := wk.paramLists.set j v
        threads := wk.threads.set j .done } } := by
  simp only [Cluster.step] at h
  split at h
  · split at h
    · split at h
      · exact ⟨_, _, _, _, ‹_›, ‹_›, ‹_›, ‹_›, (Option.some.inj h).symm⟩
      · cases h
    · cases h
  · cases h

theorem step_gather {c c' : Cluster ω θ γ} {w : ℕ} (h : c.step e (.gather w) = some c') :
    ∃ wk, c.workers[w]? = some wk ∧ wk.threads ≠ [] ∧ (∀ t ∈ wk.threads, t = .done) ∧
      c' = { c with workers := c.workers.set w { wk with
        model := wk.paramLists
        threads := [] } } := by
  simp only [Cluster.step] at h
  split at h
  · split_ifs at h with h1
    exact ⟨_, ‹_›, h1.1, h1.2, (Option.some.inj h).symm⟩
  · cases h

end Model

end Strn
