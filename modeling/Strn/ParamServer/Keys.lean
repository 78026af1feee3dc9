import Strn.ParamServer.Lockstep
import Strn.Partition.Layout

/-
  The parameter-server job seen parameter by parameter (`ps_key_sgd`).

  `main` places the model's names on the shards with the partition loop: `ps_param_lists[j]`
  holds `key_param[key]` for the names placed on shard `j`, and `param_ps_idx`, `param_loc_idx`
  record where. Which slot a name gets depends only on the element counts, so the value lists are
  the name lists with `key_param` applied (`partitionLoop_mapEntries`). A worker writes each
  named gradient into `grad_lists[param_ps_idx[key]][param_loc_idx[key]]`, starting from
  `param_or_grad_lists`, lists of `None` shaped like `ps_param_lists`.

  `Setup.ofKeys` is the job whose shard `j` starts from `ps_param_lists[j]` and whose workers'
  `grad_lists` hold at each slot the gradient of the name placed there; the worker's scatter
  builds exactly these lists (`scatter_noneGradLists`). In every state the job can reach, every
  future a shard has completed holds the optimizer's step on the shard's lockstep parameters,
  each paired with the sum over all workers of their gradients for its own name.
-/

namespace Strn

variable {κ ω θ γ π π' : Type}

/-! ## The layout does not depend on the entries -/

/-- The partition with `f` applied to every entry of the lists. -/
def Partition.mapEntries (f : π → π') (s : Partition κ π) : Partition κ π' :=
  ⟨s.paramNums, s.paramLists.map (·.map f), s.paramLocs⟩

theorem assign_mapEntries (f : π → π') (entry : κ → π) (s : Partition κ π) (key : κ)
    (numel idx : ℕ) :
    (s.mapEntries f).assign (f ∘ entry) key numel idx = (s.assign entry key numel idx).mapEntries f := by
  simp only [Partition.assign, Partition.mapEntries, Partition.mk.injEq, true_and]
  refine ⟨List.ext_getElem? fun n => ?_, ?_⟩
  · simp only [List.getElem?_map, List.getElem?_modify]
    cases s.paramLists[n]? <;> split_ifs <;> simp
  · simp only [List.getD_eq_getElem?_getD, List.getElem?_map]
    cases s.paramLists[idx]? <;> simp

theorem partitionLoop_mapEntries (f : π → π') (entry : κ → π) :
    ∀ (items : List (κ × ℕ)) (s : Partition κ π),
      partitionLoop (f ∘ entry) items (s.mapEntries f) =
        (partitionLoop entry items s).map (Partition.mapEntries f)
  | [], _ => rfl
  | (key, numel) :: rest, s => by
    rw [partitionLoop_cons, partitionLoop_cons,
      show (s.mapEntries f).paramNums = s.paramNums from rfl]
    cases argmin s.paramNums with
    | none => rfl
    | some idx =>
      simp only [Option.some_bind]
      rw [assign_mapEntries, partitionLoop_mapEntries f entry rest]

/-- `ps_param_lists` holds `key_param[key]` wherever the names' partition holds `key`. -/
theorem psParamPartition_eq_map (keyParam : κ → θ) (items : List (κ × ℕ)) (n : ℕ) :
    psParamPartition keyParam items n =
      (partitionParams id items n).map (Partition.mapEntries keyParam) := by
  have hinit : (Partition.init κ κ n).mapEntries keyParam = Partition.init κ θ n := by
    simp [Partition.mapEntries, Partition.init]
  rw [psParamPartition, partitionParams, partitionParams, ← hinit]
  exact partitionLoop_mapEntries keyParam id _ _

/-! ## The job on the partition -/

/-- `param_or_grad_lists`: one `None` per parameter of each shard. -/
def noneGradLists (psParamLists : List (List θ)) : List (List (Option γ)) :=
  psParamLists.map (·.map fun _ => none)

section Job

/-- The job on the names' partition `sk`: shard `j` starts from optimizer state `opt₀` and
    `ps_param_lists[j]`, the values `key_param[key]` of its names, and worker `w`'s
    `grad_lists` at iteration `t` from model `m` holds at every slot its gradient
    `grad w t m key` for the name `key` placed there. -/
def Setup.ofKeys (sk : Partition κ κ) (keyParam : κ → θ)
    (optStep : ω → List (Param θ γ) → ω × List θ) (opt₀ : ω) (workerNum : ℕ)
    (grad : ℕ → ℕ → List (List θ) → κ → γ) : Setup ω θ γ where
  optStep := optStep
  compute w t m := sk.paramLists.map (·.map (grad w t m))
  workerNum := workerNum
  init := (sk.mapEntries keyParam).paramLists.map fun ps => (opt₀, ps)

variable {sk : Partition κ κ} {keyParam : κ → θ} {optStep : ω → List (Param θ γ) → ω × List θ}
  {opt₀ : ω} {W : ℕ} {grad : ℕ → ℕ → List (List θ) → κ → γ}

section Scatter
variable [DecidableEq κ]

/-- The worker's scatter into `param_or_grad_lists` builds the `grad_lists` of the job. -/
theorem scatter_noneGradLists {names : List κ} (h : LayoutBij id names sk) (w t : ℕ)
    (m : List (List θ)) :
    scatterGrads sk.paramLocs (fun k => some (grad w t m k)) names
        (noneGradLists (sk.mapEntries keyParam).paramLists) =
      some (((Setup.ofKeys sk keyParam optStep opt₀ W grad).compute w t m).map (·.map some)) := by
  have hshape : (noneGradLists (γ := γ) (sk.mapEntries keyParam).paramLists).map List.length =
      sk.paramLists.map List.length := by
    simp [noneGradLists, Partition.mapEntries, Function.comp_def]
  obtain ⟨l', hl', hshape', hslot⟩ := h.scatterGrads_id hshape fun k => some (grad w t m k)
  rw [hl']
  refine congrArg some (slot_ext ?_ fun i j => ?_)
  · simp [hshape', hshape, Setup.ofKeys, Function.comp_def]
  · simp only [hslot, Setup.ofKeys, List.map_map, Function.comp_def]
    exact (slot_map_map _ _ i j).symm

end Scatter

section Sums
variable [AddCommMonoid γ]

theorem ofKeys_grad_getElem? (w t i p : ℕ) :
    ((Setup.ofKeys sk keyParam optStep opt₀ W grad).grad w t i)[p]? =
      (slot sk.paramLists i p).map
        (grad w t ((Setup.ofKeys sk keyParam optStep opt₀ W grad).params t)) := by
  simp only [Setup.grad, Setup.ofKeys, slot, List.getD_eq_getElem?_getD, List.getElem?_map]
  cases sk.paramLists[i]? <;> simp [List.getElem?_map]

theorem gradSum_eq_sum {l : List γ} (hl : l ≠ []) : gradSum l = some l.sum := by
  obtain ⟨g, gs, rfl⟩ := List.exists_cons_of_ne_nil hl
  simp [gradSum, foldl_add_eq_add_sum]

/-- The gradients shard `i` steps on: at each slot, the sum over all workers of their gradients
    for the name placed there. -/
theorem roundGrads_ofKeys (hW : 0 < W) (n t i : ℕ) :
    roundGrads n ((List.range W).map fun w => (Setup.ofKeys sk keyParam optStep opt₀ W grad).grad w t i) =
      (List.range n).map fun p => (slot sk.paramLists i p).map fun k =>
        ((List.range W).map fun u =>
          grad u t ((Setup.ofKeys sk keyParam optStep opt₀ W grad).params t) k).sum := by
  set P := (Setup.ofKeys sk keyParam optStep opt₀ W grad).params t
  refine List.map_congr_left fun p _ => ?_
  simp only [List.filterMap_map, Function.comp_def, ofKeys_grad_getElem?]
  cases slot sk.paramLists i p with
  | none =>
    have hnil : ∀ l : List ℕ, l.filterMap (fun _ => (none : Option γ)) = [] :=
      fun l => List.filterMap_eq_nil_iff.mpr fun _ _ => rfl
    simp [hnil, gradSum]
  | some k =>
    have hne : (List.range W).map (fun u => grad u t P k) ≠ [] := by simpa using hW.ne'
    rw [Option.map_some', ← gradSum_eq_sum hne, ← List.filterMap_eq_map]
    rfl

end Sums

end Job

/-! ## Every parameter is stepped on its own name's summed gradient -/

section Main
variable [AddCommMonoid γ] [DecidableEq κ]

/-- Per-parameter synchronous SGD. On distinct names, `ps_num ≥ 1` shards and `worker_num ≥ 1`
    workers, the names' partition returns and `ps_param_lists` holds `key_param[key]` in each
    name's slot; each worker's scatter into `param_or_grad_lists` builds the `grad_lists` the job
    sends; and in every state the job can reach, under any interleaving, every future `f` that
    shard `i` has completed holds the optimizer's step from the shard's lockstep state after `f`
    steps, with each parameter paired with the sum over all workers of their gradients for the
    name in its slot, computed at the lockstep parameters after `f` steps. -/
theorem ps_key_sgd (items : List (κ × ℕ)) (hnames : (items.map Prod.fst).Nodup) {psNum : ℕ}
    (hn : 0 < psNum) (keyParam : κ → θ) (optStep : ω → List (Param θ γ) → ω × List θ) (opt₀ : ω)
    {W : ℕ} (hW : 0 < W) (grad : ℕ → ℕ → List (List θ) → κ → γ) :
    ∃ sk, partitionParams id items psNum = some sk ∧
      psParamPartition keyParam items psNum = some (sk.mapEntries keyParam) ∧
      (∀ w t m, scatterGrads sk.paramLocs (fun k => some (grad w t m k)) (items.map Prod.fst)
          (noneGradLists (sk.mapEntries keyParam).paramLists) =
        some (((Setup.ofKeys sk keyParam optStep opt₀ W grad).compute w t m).map (·.map some))) ∧
      ∀ c, Reachable (Setup.ofKeys sk keyParam optStep opt₀ W grad) c →
        ∀ (i : ℕ) (sh : ParameterServer ω θ γ), c.shards[i]? = some sh → ∀ f < sh.psCompFuture,
          ∃ st, ((Setup.ofKeys sk keyParam optStep opt₀ W grad).lockstep f)[i]? = some st ∧
            sh.futureResults f = some (optStep st.1 (List.zipWith Param.mk st.2
              ((List.range st.2.length).map fun p => (slot sk.paramLists i p).map fun k =>
                ((List.range W).map fun u => grad u f
                  ((Setup.ofKeys sk keyParam optStep opt₀ W grad).params f) k).sum))).2 := by
  obtain ⟨sk, hsk, -, hbij⟩ := exists_layoutBij_partitionParams id items hnames hn
  refine ⟨sk, hsk, by rw [psParamPartition_eq_map, hsk]; rfl,
    fun w t m => scatter_noneGradLists hbij w t m, fun c hc i sh hs f hf => ?_⟩
  set e := Setup.ofKeys sk keyParam optStep opt₀ W grad
  have h := reachable_clusterInv (e := e) hW hc
  have hi : i < (e.lockstep f).length := by
    rw [lockstep_length, ← h.shards_length]
    exact (List.getElem?_eq_some_iff.mp hs).1
  obtain ⟨st, hst⟩ : ∃ st, (e.lockstep f)[i]? = some st := ⟨_, List.getElem?_eq_getElem hi⟩
  refine ⟨st, hst, ?_⟩
  have hres := (h.shard i sh hs).results f
  rw [if_pos hf, Setup.params, List.getElem?_map, lockstep_succ_getElem?, hst] at hres
  rw [hres, ← roundGrads_ofKeys hW]
  rfl

/-- Three names on two shards, two workers whose gradient for name `k` is `w + k`, and SGD
    with step `1`. -/
theorem ps_key_sgd_three_names :
    let items : List (ℕ × ℕ) := [(0, 5), (1, 7), (2, 3)]
    let keyParam : ℕ → ℕ := fun k => 10 * k
    let optStep : Unit → List (Param ℕ ℕ) → Unit × List ℕ :=
      fun o ps => (o, ps.map fun p => p.data + p.grad.getD 0)
    let grad : ℕ → ℕ → List (List ℕ) → ℕ → ℕ := fun w _ _ k => w + k
    (items.map Prod.fst).Nodup ∧ 0 < 2 ∧ 0 < 2 ∧
    ∃ sk, partitionParams id items 2 = some sk ∧
      psParamPartition keyParam items 2 = some (sk.mapEntries keyParam) ∧
      (∀ w t m, scatterGrads sk.paramLocs (fun k => some (grad w t m k)) (items.map Prod.fst)
          (noneGradLists (sk.mapEntries keyParam).paramLists) =
        some (((Setup.ofKeys sk keyParam optStep () 2 grad).compute w t m).map (·.map some))) ∧
      ∀ c, Reachable (Setup.ofKeys sk keyParam optStep () 2 grad) c →
        ∀ (i : ℕ) (sh : ParameterServer Unit ℕ ℕ), c.shards[i]? = some sh → ∀ f < sh.psCompFuture,
          ∃ st, ((Setup.ofKeys sk keyParam optStep () 2 grad).lockstep f)[i]? = some st ∧
            sh.futureResults f = some (optStep st.1 (List.zipWith Param.mk st.2
              ((List.range st.2.length).map fun p => (slot sk.paramLists i p).map fun k =>
                ((List.range 2).map fun u => grad u f
                  ((Setup.ofKeys sk keyParam optStep () 2 grad).params f) k).sum))).2 :=
  ⟨by decide, by decide, by decide, ps_key_sgd _ (by decide) (by decide) _ _ _ (by decide) _⟩

end Main

end Strn
