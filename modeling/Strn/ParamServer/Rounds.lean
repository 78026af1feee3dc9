import Strn.ParamServer.Shard

/-
  What a shard is for, and that `ps_computing` does it. The abstract machine `Rounds` cuts the
  stream of contributions into rounds: a contribution joins the open round, and the round
  closes at a contribution made in async mode or at its `worker_num`-th one. Each closed round
  stands for one optimizer step on the element-wise sum of its contributions
  (`replayRounds`).

  `Refines` relates a shard to the rounds of the calls it served: the counter is the size of
  the open round, each `.grad` is the sum of the open round's gradients at its position, and
  the optimizer state and parameter values are those of one optimizer step per closed round.
  Every call keeps it (`Refines.psComputing`), so every run from `__init__` does; this gives the
  accumulator invariant of `ps_accumulator_invariant`.

  Sums are taken as the code takes them, left to right in arrival order, so `γ` needs only
  `+`. The `zip` of `ps_computing` drops the entries of a gradient list beyond the parameters
  and leaves the parameters beyond a short list alone; `roundGrads` sums, at each position, the
  contributions that have an entry there, which is that behaviour and, for gradients shaped
  like the parameters, the plain element-wise sum.
-/

namespace Strn

variable {ω θ γ : Type}

/-! ## Sums of gradients -/

section Sums
variable [Add γ]

/-- The sum of the gradients one position received, in arrival order (the first, then `+=`
    each later one), or `none` when none arrived. -/
def gradSum : List γ → Option γ
  | [] => none
  | g :: gs => some (gs.foldl (· + ·) g)

/-- A round's gradients at `n` positions: position `p` sums the contributions that have an
    entry `p`. -/
def roundGrads (n : ℕ) (round : List (List γ)) : List (Option γ) :=
  (List.range n).map fun p => gradSum (round.filterMap (·[p]?))

theorem gradSum_eq_none_iff {l : List γ} : gradSum l = none ↔ l = [] := by
  cases l <;> simp [gradSum]

theorem gradSum_append_singleton (l : List γ) (g : γ) :
    gradSum (l ++ [g]) = addGrad (gradSum l) g := by
  cases l <;> simp [gradSum, addGrad, List.foldl_append]

@[simp] theorem roundGrads_length (n : ℕ) (round : List (List γ)) :
    (roundGrads n round).length = n := by
  simp [roundGrads]

theorem roundGrads_nil (n : ℕ) : roundGrads n ([] : List (List γ)) = List.replicate n none := by
  simp [roundGrads, gradSum, List.map_const']

/-- The loop of `ps_computing` adds one contribution to the sums of the open round. -/
theorem accumulateGrads_roundGrads {ps : List (Param θ γ)} {pending : List (List γ)}
    (h : ps.map Param.grad = roundGrads ps.length pending) (g : List γ) :
    (accumulateGrads ps g).map Param.grad = roundGrads ps.length (pending ++ [g]) := by
  refine List.ext_getElem? fun p => ?_
  rw [accumulateGrads_grad_getElem?, h]
  simp only [roundGrads, List.getElem?_map]
  by_cases hp : p < ps.length
  · rw [List.getElem?_range hp]
    cases hg : g[p]? <;> simp [hg, List.filterMap_append, gradSum_append_singleton]
  · have hr : (List.range ps.length)[p]? = none := List.getElem?_eq_none (by simpa using hp)
    rw [hr]
    rfl

end Sums

theorem zipWith_data_grad (ps : List (Param θ γ)) :
    List.zipWith Param.mk (ps.map Param.data) (ps.map Param.grad) = ps := by
  induction ps <;> simp [*]

/-! ## The rounds a shard forms -/

/-- What a shard does with the contributions it receives: it cuts their stream into rounds.
    `closed` holds the finished rounds, oldest first, and `pending` the open one. -/
structure Rounds (γ : Type) where
  syncMode : ℤ
  closed : List (List (List γ))
  pending : List (List γ)

/-- No round yet, in sync mode. -/
def Rounds.init : Rounds γ := ⟨0, [], []⟩

/-- One call: a contribution joins the open round, which closes when the call is async or the
    round is full; a mode switch changes the mode. -/
def Rounds.apply (workerNum : ℕ) (a : Rounds γ) : PsOp γ → Rounds γ
  | .psComputing g =>
    if a.syncMode = 1 ∨ workerNum ≤ a.pending.length + 1 then
      { a with closed := a.closed ++ [a.pending ++ [g]], pending := [] }
    else { a with pending := a.pending ++ [g] }
  | .setSyncMode m => { a with syncMode := m }

/-- The rounds of a run of calls from the start. -/
def Rounds.run (workerNum : ℕ) (ops : List (PsOp γ)) : Rounds γ :=
  ops.foldl (Rounds.apply workerNum) Rounds.init

/-- The rounds partition the contributions: closed rounds, then the open one, in call order. -/
theorem Rounds.flatten_foldl (workerNum : ℕ) (ops : List (PsOp γ)) (a : Rounds γ) :
    (ops.foldl (Rounds.apply workerNum) a).closed.flatten ++
        (ops.foldl (Rounds.apply workerNum) a).pending =
      a.closed.flatten ++ a.pending ++ contributions ops := by
  induction ops generalizing a with
  | nil => simp [contributions]
  | cons op ops ih =>
    rw [List.foldl_cons, ih]
    cases op with
    | psComputing g => unfold Rounds.apply; split_ifs <;> simp [contributions]
    | setSyncMode m => simp [Rounds.apply, contributions]

/-- The optimizer run once per closed round, oldest first, each time on the parameters with the
    round's sums as their gradients. -/
def replayRounds [Add γ] (optStep : ω → List (Param θ γ) → ω × List θ) (st : ω × List θ)
    (rounds : List (List (List γ))) : ω × List θ :=
  rounds.foldl (fun st round =>
    optStep st.1 (List.zipWith Param.mk st.2 (roundGrads st.2.length round))) st

/-! ## The shard refines its rounds -/

section Refinement
variable [Add γ] (optStep : ω → List (Param θ γ) → ω × List θ)

theorem replayRounds_append_singleton (st : ω × List θ) (rounds : List (List (List γ)))
    (round : List (List γ)) :
    replayRounds optStep st (rounds ++ [round]) =
      optStep (replayRounds optStep st rounds).1 (List.zipWith Param.mk
        (replayRounds optStep st rounds).2
        (roundGrads (replayRounds optStep st rounds).2.length round)) := by
  simp [replayRounds, List.foldl_append]

/-- The shard `c` is in the state the rounds `a` describe, from optimizer state and parameter
    values `st₀`. -/
structure Refines (st₀ : ω × List θ) (c : ParameterServer ω θ γ) (a : Rounds γ) : Prop where
  syncMode : c.syncMode = a.syncMode
  count : c.syncWorkerCount = a.pending.length
  count_lt : c.syncWorkerCount < c.workerNum
  grads : c.psParams.map Param.grad = roundGrads c.psParams.length a.pending
  replay : (c.optimizer, c.psParams.map Param.data) = replayRounds optStep st₀ a.closed

theorem refines_init {workerNum : ℕ} (hW : 0 < workerNum) (params : List θ) (opt₀ : ω) :
    Refines optStep (opt₀, params) (ParameterServer.init workerNum params opt₀) Rounds.init where
  syncMode := rfl
  count := rfl
  count_lt := hW
  grads := by simp [ParameterServer.init, Rounds.init, roundGrads_nil, Function.comp_def]
  replay := by simp [ParameterServer.init, Rounds.init, replayRounds, Function.comp_def]

/-- A `ps_computing` call keeps the refinement: its contribution joins the open round, and when
    the round closes the optimizer steps on exactly that round's sums. -/
theorem Refines.psComputing {st₀ : ω × List θ} {c : ParameterServer ω θ γ} {a : Rounds γ}
    (h : Refines optStep st₀ c a) (g : List γ) :
    Refines optStep st₀ (c.psComputing optStep g).1 (a.apply c.workerNum (.psComputing g)) := by
  have hacc := accumulateGrads_roundGrads h.grads g
  have hlt := h.count_lt
  rw [psComputing_eq]
  simp only [Rounds.apply, ← h.syncMode, ← h.count]
  split_ifs with hc
  · have hin : accumulateGrads c.psParams g = List.zipWith Param.mk
        (replayRounds optStep st₀ a.closed).2
        (roundGrads (replayRounds optStep st₀ a.closed).2.length (a.pending ++ [g])) := by
      rw [← h.replay]
      simpa [hacc] using (zipWith_data_grad (accumulateGrads c.psParams g)).symm
    have hopt : c.optimizer = (replayRounds optStep st₀ a.closed).1 := congrArg Prod.fst h.replay
    refine ⟨rfl, rfl, by dsimp only; omega, by simp [roundGrads_nil, Function.comp_def], ?_⟩
    rw [replayRounds_append_singleton, ← hin, ← hopt]
    simp [Function.comp_def]
  · exact ⟨rfl, by simp [h.count], by dsimp only; omega, by simpa using hacc,
      by simpa using h.replay⟩

theorem Refines.setSyncMode {st₀ : ω × List θ} {c : ParameterServer ω θ γ} {a : Rounds γ}
    (h : Refines optStep st₀ c a) (m : ℤ) :
    Refines optStep st₀ (c.setSyncMode m) (a.apply c.workerNum (.setSyncMode m)) :=
  ⟨rfl, h.count, h.count_lt, h.grads, h.replay⟩

/-- Every run keeps the refinement. -/
theorem Refines.run {st₀ : ω × List θ} {c : ParameterServer ω θ γ} {a : Rounds γ}
    (h : Refines optStep st₀ c a) (ops : List (PsOp γ)) :
    Refines optStep st₀ (c.run optStep ops).1 (ops.foldl (Rounds.apply c.workerNum) a) := by
  induction ops generalizing c a with
  | nil => exact h
  | cons op ops ih =>
    rw [run_cons, List.foldl_cons]
    cases op with
    | psComputing g => simpa using ih (h.psComputing optStep g)
    | setSyncMode m => exact ih (h.setSyncMode optStep m)

/-- The accumulator invariant. After any run of `ps_computing` and `set_sync_mode` calls from
    `__init__` with `worker_num ≥ 1`: `sync_worker_count` is below `worker_num` and is the
    number of contributions of the open round; each `param.grad` is the sum, at its position,
    of that round's gradients, and with gradients shaped like the parameters it is `None`
    exactly when the count is `0`; the rounds partition the contributions in call order; and
    the optimizer state and values are those of one optimizer step per closed round, on that
    round's sums. So every contribution enters exactly one step, once. -/
theorem ps_accumulator_invariant (workerNum : ℕ) (hW : 0 < workerNum) (params : List θ)
    (opt₀ : ω) (ops : List (PsOp γ))
    (hshape : ∀ g ∈ contributions ops, g.length = params.length) :
    let c := ((ParameterServer.init workerNum params opt₀).run optStep ops).1
    let a := Rounds.run workerNum ops
    c.syncWorkerCount < workerNum ∧ c.syncWorkerCount = a.pending.length ∧
      c.psParams.map Param.grad = roundGrads c.psParams.length a.pending ∧
      (∀ p (hp : p < c.psParams.length), p < params.length →
        (c.psParams[p].grad = none ↔ c.syncWorkerCount = 0)) ∧
      a.closed.flatten ++ a.pending = contributions ops ∧
      (c.optimizer, c.psParams.map Param.data) = replayRounds optStep (opt₀, params) a.closed := by
  intro c a
  have h : Refines optStep (opt₀, params) c a := (refines_init optStep hW params opt₀).run optStep ops
  have hflat : a.closed.flatten ++ a.pending = contributions ops := by
    simpa [Rounds.init] using Rounds.flatten_foldl workerNum ops Rounds.init
  refine ⟨by simpa [c] using h.count_lt, h.count, h.grads, fun p hp hpn => ?_, hflat, h.replay⟩
  have hgrad : c.psParams[p].grad = gradSum (a.pending.filterMap (·[p]?)) := by
    simpa [roundGrads, hp] using congrArg (·[p]?) h.grads
  rw [hgrad, gradSum_eq_none_iff, List.filterMap_eq_nil_iff, h.count, List.length_eq_zero]
  refine ⟨fun hnone => List.eq_nil_iff_forall_not_mem.mpr fun g hg => ?_, fun he => by simp [he]⟩
  have hlen := hshape g (hflat ▸ List.mem_append_right _ hg)
  exact absurd (by simpa [List.getElem?_eq_none_iff, hlen] using hnone g hg) (Nat.not_le.mpr hpn)

/-- Two workers, a switch to async mode in the middle of a round, and SGD with step `1` on
    natural numbers. -/
theorem ps_accumulator_invariant_mode_switch :
    let sgd := fun (o : Unit) (ps : List (Param ℕ ℕ)) => (o, ps.map fun p => p.data + p.grad.getD 0)
    let ops : List (PsOp ℕ) := [.psComputing [1, 2], .setSyncMode 1, .psComputing [3, 4]]
    0 < 2 ∧ (∀ g ∈ contributions ops, g.length = [10, 20].length) ∧
      let c := ((ParameterServer.init 2 [10, 20] ()).run sgd ops).1
      let a := Rounds.run 2 ops
      c.syncWorkerCount < 2 ∧ c.syncWorkerCount = a.pending.length ∧
        c.psParams.map Param.grad = roundGrads c.psParams.length a.pending ∧
        (∀ p (hp : p < c.psParams.length), p < [10, 20].length →
          (c.psParams[p].grad = none ↔ c.syncWorkerCount = 0)) ∧
        a.closed.flatten ++ a.pending = contributions ops ∧
        (c.optimizer, c.psParams.map Param.data) = replayRounds sgd ((), [10, 20]) a.closed :=
  ⟨by decide, by decide, ps_accumulator_invariant _ 2 (by decide) [10, 20] () _ (by decide)⟩

end Refinement

end Strn
