import Mathlib.Data.List.Sort
import Mathlib.Algebra.BigOperators.Group.List
import Mathlib.Data.List.MinMax
import Mathlib.Data.List.GetD
import Mathlib.Tactic.Ring

/-
  The parameter partition loop of `main` (`training_sgd.py`, parameter-server mode, and
  `training_sgd_allreduce.py`, ring mode). The manager sorts the `(name, numel)` items by
  element count, descending and stably (`sorted(..., reverse=True)`), then gives each item in
  turn to `np.argmin` of the running loads, appends it to that shard's list at the next
  position, and records `(shard, position)` under its name.

  The two files differ only in what is appended: the parameter `key_param[key]` (PS) or the
  name itself (ring). `partitionLoop` takes that as `entry`; `psParamPartition` and
  `wrkPkeyPartition` are the two instances. `np.argmin` of an empty list raises, so `argmin`
  and the loop are `Option`-valued; with `N ≥ 1` shards the loop always returns
  (`partitionParams_isSome`).

  A Python dict is modelled by its items in insertion order. Every name is written once (the
  items come from a dict), so each dict write is an append.
-/

namespace Strn

/-! ## `np.argmin` -/

/-- `np.argmin`: the first index of the least entry; `none` on an empty list (numpy raises). -/
def argmin (l : List ℕ) : Option ℕ := l.min?.map l.indexOf

theorem argmin_eq_none_iff {l : List ℕ} : argmin l = none ↔ l = [] := by
  simp [argmin]

theorem argmin_isSome {l : List ℕ} (h : l ≠ []) : (argmin l).isSome := by
  cases hl : argmin l with
  | none => exact absurd (argmin_eq_none_iff.mp hl) h
  | some _ => rfl

/-- What `argmin` returns: an index in range whose entry is at most every entry and strictly
    below every entry before it. -/
theorem argmin_spec {l : List ℕ} {i : ℕ} (h : argmin l = some i) :
    ∃ hi : i < l.length, (∀ j (hj : j < l.length), l[i] ≤ l[j]) ∧
      ∀ j (hj : j < i), l[i] < l[j] := by
  simp only [argmin, Option.map_eq_some'] at h
  obtain ⟨m, hm, rfl⟩ := h
  have hmem : m ∈ l := List.min?_mem (fun a b => by omega) hm
  have hlt : l.indexOf m < l.length := List.indexOf_lt_length.mpr hmem
  have heq : l[l.indexOf m] = m := List.getElem_indexOf hlt
  have hmin : ∀ j (hj : j < l.length), m ≤ l[j] := fun j hj =>
    (List.le_min?_iff (fun a b c => by omega) hm).mp le_rfl _ (List.getElem_mem hj)
  refine ⟨hlt, fun j hj => by rw [heq]; exact hmin j hj, fun j hj => ?_⟩
  have hne : ¬ l[j] = m := by simpa using List.not_of_lt_findIdx hj
  rw [heq]
  exact lt_of_le_of_ne (hmin j _) (Ne.symm hne)

/-! ## Slots of a list of lists -/

/-- `lists[i][j]`, or `none` when either index is out of range. -/
def slot {β : Type} (lists : List (List β)) (i j : ℕ) : Option β := lists[i]?.bind (·[j]?)

section Slot
variable {β : Type} (lists : List (List β))

theorem slot_eq_some_iff {i j : ℕ} {b : β} :
    slot lists i j = some b ↔ ∃ (hi : i < lists.length) (hj : j < lists[i].length),
      lists[i][j] = b := by
  simp only [slot]
  constructor
  · intro h
    obtain ⟨l, hl, hb⟩ := Option.bind_eq_some.mp h
    obtain ⟨hi, rfl⟩ := List.getElem?_eq_some_iff.mp hl
    obtain ⟨hj, rfl⟩ := List.getElem?_eq_some_iff.mp hb
    exact ⟨hi, hj, rfl⟩
  · rintro ⟨hi, hj, rfl⟩
    simp [List.getElem?_eq_getElem hi, List.getElem?_eq_getElem hj]

theorem slot_isSome_iff {i j : ℕ} :
    (slot lists i j).isSome ↔ ∃ hi : i < lists.length, j < lists[i].length := by
  rw [Option.isSome_iff_exists]
  simp only [slot_eq_some_iff]
  exact ⟨fun ⟨_, hi, hj, _⟩ => ⟨hi, hj⟩, fun ⟨hi, hj⟩ => ⟨_, hi, hj, rfl⟩⟩

/-- Appending `b` to list `idx` fills exactly the slot one past its end. -/
theorem slot_modify_append (b : β) {idx : ℕ} (hidx : idx < lists.length) (i j : ℕ) :
    slot (lists.modify (· ++ [b]) idx) i j =
      if i = idx ∧ j = lists[idx].length then some b else slot lists i j := by
  simp only [slot, List.getElem?_modify]
  by_cases hi : i = idx
  · subst hi
    simp only [List.getElem?_eq_getElem hidx, if_true, Option.map_eq_map, Option.map_some',
      Option.some_bind, true_and, List.getElem?_append]
    split_ifs with h1 h2 h2
    · omega
    · rfl
    · simp [h2]
    · rw [List.getElem?_eq_none (by simp; omega), List.getElem?_eq_none (by omega)]
  · simp [Ne.symm hi, hi]

/-- Writing `b` at `(i', j')` changes that slot, if it exists, and no other. -/
theorem slot_modify_set (b : β) (i' j' i j : ℕ) :
    slot (lists.modify (·.set j' b) i') i j =
      if i = i' ∧ j = j' ∧ (slot lists i j).isSome then some b else slot lists i j := by
  simp only [slot, List.getElem?_modify]
  by_cases hi : i = i'
  · subst hi
    cases lists[i]? with
    | none => simp
    | some l =>
      simp only [if_true, Option.map_eq_map, Option.map_some', Option.some_bind, true_and,
        List.getElem?_set]
      by_cases hj : j = j'
      · subst hj
        by_cases h : j < l.length
        · simp [h, List.getElem?_eq_getElem]
        · simp [h, List.getElem?_eq_none (Nat.le_of_not_lt h)]
      · simp [hj, Ne.symm hj]
  · simp [Ne.symm hi, hi]

end Slot

/-! ## The partition loop -/

/-- The manager's state during the loop: the running loads `ps_param_nums`, the shard lists
    `ps_param_lists`, and the name dict of `(shard, position)` pairs (`param_ps_idx` and
    `param_loc_idx` together; `wrk_pkey_locs` in ring mode). -/
structure Partition (κ π : Type) where
  paramNums : List ℕ
  paramLists : List (List π)
  paramLocs : List (κ × ℕ × ℕ)

variable {κ π : Type}

/-- Before the loop: `[0 for _ in range(ps_num)]`, `[[] for _ in range(ps_num)]`, `{}`. -/
def Partition.init (κ π : Type) (n : ℕ) : Partition κ π :=
  ⟨List.replicate n 0, List.replicate n [], []⟩

/-- One iteration once `idx` is chosen: record `(idx, len(lists[idx]))` under `key`, add
    `numel` to load `idx` and append the entry to list `idx`. -/
def Partition.assign (entry : κ → π) (s : Partition κ π) (key : κ) (numel idx : ℕ) :
    Partition κ π where
  paramNums := s.paramNums.modify (· + numel) idx
  paramLists := s.paramLists.modify (· ++ [entry key]) idx
  paramLocs := s.paramLocs ++ [(key, idx, (s.paramLists.getD idx []).length)]

/-- The loop body over the sorted items, with `idx = np.argmin(ps_param_nums)`. -/
def partitionLoop (entry : κ → π) : List (κ × ℕ) → Partition κ π → Option (Partition κ π)
  | [], s => some s
  | (key, numel) :: rest, s =>
    (argmin s.paramNums).bind fun idx => partitionLoop entry rest (s.assign entry key numel idx)

/-- `sorted(param_numel.items(), key=lambda x: x[1], reverse=True)`: a stable sort by element
    count, largest first. -/
def sortByNumel (items : List (κ × ℕ)) : List (κ × ℕ) :=
  items.mergeSort fun a b => b.2 ≤ a.2

/-- The whole partition step of `main` for `n` shards. -/
def partitionParams (entry : κ → π) (items : List (κ × ℕ)) (n : ℕ) : Option (Partition κ π) :=
  partitionLoop entry (sortByNumel items) (Partition.init κ π n)

/-- Parameter-server mode: `ps_param_lists[idx].append(key_param[key])`. -/
def psParamPartition (keyParam : κ → π) (items : List (κ × ℕ)) (psNum : ℕ) :
    Option (Partition κ π) :=
  partitionParams keyParam items psNum

/-- Ring mode: `wrk_pkey_lists[idx].append(key)`. -/
def wrkPkeyPartition (items : List (κ × ℕ)) (wrkNum : ℕ) : Option (Partition κ κ) :=
  partitionParams id items wrkNum

@[simp] theorem partitionLoop_nil (entry : κ → π) (s : Partition κ π) :
    partitionLoop entry [] s = some s := rfl

theorem partitionLoop_cons (entry : κ → π) (key : κ) (numel : ℕ) (rest : List (κ × ℕ))
    (s : Partition κ π) :
    partitionLoop entry ((key, numel) :: rest) s =
      (argmin s.paramNums).bind fun idx =>
        partitionLoop entry rest (s.assign entry key numel idx) := rfl

@[simp] theorem assign_paramNums_length (entry : κ → π) (s : Partition κ π) (key : κ)
    (numel idx : ℕ) : (s.assign entry key numel idx).paramNums.length = s.paramNums.length := by
  simp [Partition.assign]

@[simp] theorem assign_paramLists_length (entry : κ → π) (s : Partition κ π) (key : κ)
    (numel idx : ℕ) : (s.assign entry key numel idx).paramLists.length = s.paramLists.length := by
  simp [Partition.assign]

theorem sortByNumel_perm (items : List (κ × ℕ)) : (sortByNumel items).Perm items :=
  List.mergeSort_perm _ _

/-- Largest first. -/
theorem sortByNumel_sorted (items : List (κ × ℕ)) :
    (sortByNumel items).Pairwise fun x y => y.2 ≤ x.2 := by
  simpa using @List.sorted_mergeSort _ (fun x y : κ × ℕ => decide (y.2 ≤ x.2))
    (fun _ _ _ hxy hyz => by simp only [decide_eq_true_eq] at *; omega)
    (fun x y => by simp only [Bool.or_eq_true, decide_eq_true_eq]; omega) items

end Strn
