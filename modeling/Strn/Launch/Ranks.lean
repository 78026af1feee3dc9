import Mathlib.Data.List.Range
import Mathlib.Data.List.Nodup

/-
  Who runs what in a launched job (`launch_names`).

  `main` gives every `rpc_rank` one RPC name: rank 0 is the manager, the next `ps_num` ranks
  the shards `ps0, ps1, …`, the next `worker_num` the workers `worker0, …`, and every later
  rank the tester; `world_size` is `ps_num + worker_num + 2`, and `job_launcher.py` starts the
  ranks `0, …, ps_num + worker_num + 1`. The launched ranks, in order, take exactly the names
  the manager uses (its own, then the `ps{id}` and `worker{id}` it builds with `rpc.remote`,
  then `tester`), each once: every call of the manager reaches one process, and no two
  processes register one name. The ring job's `main` is the same dispatch with no shards.
  An f-string name is modelled by the constructor it is built with.
-/

namespace Strn

/-! ## Ranks and names -/

/-- An RPC name of the job: `manager`, `ps{id}`, `worker{id}` or `tester`. -/
inductive Role
  | manager
  | ps (id : ℕ)
  | worker (id : ℕ)
  | tester
  deriving DecidableEq, Repr

/-- `world_size = ps_num + worker_num + 2`. -/
def worldSize (psNum workerNum : ℕ) : ℕ := psNum + workerNum + 2

/-- The name `main` registers for `rpc_rank` with `rpc.init_rpc`. -/
def rankRole (psNum workerNum rank : ℕ) : Role :=
  if rank = 0 then .manager
  else if rank ≤ psNum then .ps (rank - 1)
  else if rank ≤ psNum + workerNum then .worker (rank - psNum - 1)
  else .tester

/-- The ring job's `world_size = wrk_num + 2`. -/
def ringWorldSize (wrkNum : ℕ) : ℕ := worldSize 0 wrkNum

/-- The ring job's `main`: manager, `worker{rpc_rank - 1}` up to `wrk_num`, then tester. -/
def ringRankRole (wrkNum rank : ℕ) : Role := rankRole 0 wrkNum rank

/-- The names the manager uses: its own, `ps{id}` for `id in range(ps_num)`, `worker{id}` for
    `id in range(worker_num)`, and `tester`. -/
def jobNames (psNum workerNum : ℕ) : List Role :=
  .manager :: ((List.range psNum).map .ps ++ (List.range workerNum).map .worker ++ [.tester])

/-- `job_launcher.py`: `run_remote_py` with `rpc_rank=i` for `i in range(ps_num + worker_num + 2)`. -/
def launchedRanks (psNum workerNum : ℕ) : List ℕ := List.range (psNum + workerNum + 2)

/-! ## The dispatch, segment by segment -/

section Segments
variable {psNum workerNum : ℕ}

theorem rankRole_ps {i : ℕ} (hi : i < psNum) : rankRole psNum workerNum (1 + i) = .ps i := by
  rw [rankRole, if_neg (by omega), if_pos (by omega), Nat.add_sub_cancel_left]

theorem rankRole_worker {i : ℕ} (hi : i < workerNum) :
    rankRole psNum workerNum (1 + (psNum + i)) = .worker i := by
  rw [rankRole, if_neg (by omega), if_neg (by omega), if_pos (by omega)]
  congr 1; omega

theorem rankRole_tester : rankRole psNum workerNum (1 + (psNum + workerNum)) = .tester := by
  rw [rankRole, if_neg (by omega), if_neg (by omega), if_neg (by omega)]

end Segments

/-- Ranks `0, …, world_size - 1` register the job's names in order. -/
theorem map_rankRole (psNum workerNum : ℕ) :
    (List.range (worldSize psNum workerNum)).map (rankRole psNum workerNum) =
      jobNames psNum workerNum := by
  rw [worldSize, show psNum + workerNum + 2 = 1 + (psNum + (workerNum + 1)) by omega,
    List.range_add, List.range_add, List.range_succ]
  simp only [List.map_append, List.map_map, jobNames, List.range_succ, List.range_zero,
    List.nil_append, List.map_cons, List.map_nil, List.singleton_append, List.cons_append,
    List.append_assoc]
  refine congrArg₂ _ rfl (congrArg₂ _ ?_ (congrArg₂ _ ?_ (congrArg₂ _ rankRole_tester rfl)))
  · exact List.map_congr_left fun i hi => rankRole_ps (List.mem_range.mp hi)
  · exact List.map_congr_left fun i hi => rankRole_worker (List.mem_range.mp hi)

/-- The launcher's jobs: one shard and seven workers. -/
example : (launchedRanks 1 7).map (rankRole 1 7) =
    [.manager, .ps 0, .worker 0, .worker 1, .worker 2, .worker 3, .worker 4, .worker 5,
      .worker 6, .tester] := by decide

theorem jobNames_nodup (psNum workerNum : ℕ) : (jobNames psNum workerNum).Nodup := by
  simp [jobNames, List.nodup_append, List.nodup_range, List.Nodup.map, Function.Injective,
    List.Disjoint]

/-! ## Every name is registered once -/

/-- The launched job's names. The ranks `job_launcher.py` starts register, in rank order,
    exactly the names the parameter-server manager uses, and these are pairwise different; the
    ranks `0, …, world_size - 1` of the ring job register the manager's name, `worker0` to
    `worker{wrk_num - 1}`, and `tester`. -/
theorem launch_names (psNum workerNum : ℕ) :
    (launchedRanks psNum workerNum).map (rankRole psNum workerNum) = jobNames psNum workerNum ∧
    (jobNames psNum workerNum).Nodup ∧
    (List.range (ringWorldSize workerNum)).map (ringRankRole workerNum) = jobNames 0 workerNum :=
  ⟨map_rankRole psNum workerNum, jobNames_nodup psNum workerNum, map_rankRole 0 workerNum⟩

end Strn
