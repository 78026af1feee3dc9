import Strn.Partition.Loop

/-
  Layout agreement of the partition (`main`, both files) with the worker's scatter and gather
  (`Worker.run_worker`, `training_sgd.py`). `LayoutInv` is the loop invariant: every recorded
  `(shard, position)` is a filled slot holding that name's entry, every filled slot is
  recorded, and no slot is recorded twice. It holds for any choice of shard below `N`, so it
  does not depend on `np.argmin`. On distinct names it gives `LayoutBij`: the name dict is a
  bijection from the names onto the filled slots. Scatter then fills every slot of any list
  of lists shaped like `ps_param_lists`, the shard's `zip(ps_params, gradients)` pairs each
  parameter with its own gradient, and gather after scatter returns every name's own value.
-/

namespace Strn

variable {κ π β : Type}

/-! ## The name dict -/

section Lookup
variable [DecidableEq κ]

/-- `(param_ps_idx[key], param_loc_idx[key])` (`wrk_pkey_locs[key]` in ring mode). -/
def Partition.locOf (s : Partition κ π) (key : κ) : Option (ℕ × ℕ) := s.paramLocs.lookup key

/-- On a dict whose names are distinct, lookup finds exactly the stored items. -/
theorem lookup_eq_some_iff_mem {l : List (κ × β)} (hl : (l.map Prod.fst).Nodup) {k : κ}
    {b : β} : l.lookup k = some b ↔ (k, b) ∈ l := by
  induction l with
  | nil => simp
  | cons p l ih =>
    obtain ⟨k', b'⟩ := p
    simp only [List.map_cons, List.nodup_cons, List.mem_map] at hl
    by_cases hk : k = k'
    · subst hk
      have hnot : ∀ c, (k, c) ∉ l := fun c hc => hl.1 ⟨(k, c), hc, rfl⟩
      simp [List.lookup_cons, hnot, eq_comm]
    · have hb : (k == k') = false := beq_false_of_ne hk
      simp [List.lookup_cons, hb, hk, ih hl.2]

end Lookup

/-! ## The loop invariant -/

/-- The partition invariant after the names `keys` have been placed on `n` shards. -/
structure LayoutInv (entry : κ → π) (n : ℕ) (keys : List κ) (s : Partition κ π) : Prop where
  nums_length : s.paramNums.length = n
  lists_length : s.paramLists.length = n
  keys_eq : s.paramLocs.map Prod.fst = keys
  slot_of_loc : ∀ k i j, (k, i, j) ∈ s.paramLocs → slot s.paramLists i j = some (entry k)
  loc_of_slot : ∀ i j, (slot s.paramLists i j).isSome → ∃ k, (k, i, j) ∈ s.paramLocs
  slots_nodup : (s.paramLocs.map Prod.snd).Nodup

theorem layoutInv_init (entry : κ → π) (n : ℕ) :
    LayoutInv entry n [] (Partition.init κ π n) where
  nums_length := by simp [Partition.init]
  lists_length := by simp [Partition.init]
  keys_eq := rfl
  slot_of_loc := by simp [Partition.init]
  loc_of_slot i j h := by
    simp only [Partition.init, slot, List.getElem?_replicate] at h
    split_ifs at h <;> simp at h
  slots_nodup := List.nodup_nil

/-- One iteration on any shard `idx < n` keeps the invariant. -/
theorem LayoutInv.assign {entry : κ → π} {n : ℕ} {keys : List κ} {s : Partition κ π}
    (h : LayoutInv entry n keys s) (key : κ) (numel : ℕ) {idx : ℕ} (hidx : idx < n) :
    LayoutInv entry n (keys ++ [key]) (s.assign entry key numel idx) := by
  have hl : idx < s.paramLists.length := h.lists_length ▸ hidx
  have hend : slot s.paramLists idx s.paramLists[idx].length = none := by
    simp [slot, List.getElem?_eq_getElem hl]
  have hold : ∀ k i j, (k, i, j) ∈ s.paramLocs → ¬ (i = idx ∧ j = s.paramLists[idx].length) :=
    fun k i j hk hij => by
      obtain ⟨rfl, rfl⟩ := hij
      simpa [hend] using h.slot_of_loc k _ _ hk
  have hslot := slot_modify_append s.paramLists (entry key) hl
  simp only [Partition.assign, List.getD_eq_getElem _ _ hl]
  refine ⟨by simp [h.nums_length], by simp [h.lists_length], by simp [h.keys_eq], ?_, ?_, ?_⟩
  · intro k i j hk
    rw [hslot]
    rcases List.mem_append.mp hk with hk | hk
    · rw [if_neg (hold k i j hk)]
      exact h.slot_of_loc k i j hk
    · simp only [List.mem_singleton, Prod.mk.injEq] at hk
      obtain ⟨rfl, rfl, rfl⟩ := hk
      simp
  · intro i j hs
    rw [hslot] at hs
    split_ifs at hs with hij
    · exact ⟨key, by simp [hij.1, hij.2]⟩
    · obtain ⟨k, hk⟩ := h.loc_of_slot i j hs
      exact ⟨k, List.mem_append_left _ hk⟩
  · rw [List.map_append, List.nodup_append]
    refine ⟨h.slots_nodup, List.nodup_singleton _, ?_⟩
    simp only [List.map_cons, List.map_nil, List.disjoint_singleton, List.mem_map, not_exists,
      not_and]
    rintro ⟨k, i, j⟩ hk hij
    simp only [Prod.mk.injEq] at hij
    exact hold k i j hk hij

/-- The loop keeps the invariant on every input, and with `n ≥ 1` shards it never hits
    numpy's empty-`argmin` error. -/
theorem LayoutInv.partitionLoop {entry : κ → π} {n : ℕ} (hn : 0 < n) :
    ∀ (items : List (κ × ℕ)) (keys : List κ) (s : Partition κ π), LayoutInv entry n keys s →
      ∃ s', partitionLoop entry items s = some s' ∧
        LayoutInv entry n (keys ++ items.map Prod.fst) s'
  | [], keys, s, h => ⟨s, rfl, by simpa using h⟩
  | (key, numel) :: rest, keys, s, h => by
    have hne : s.paramNums ≠ [] := fun he => by simp [he, ← h.nums_length] at hn
    obtain ⟨idx, hidx⟩ := Option.isSome_iff_exists.mp (argmin_isSome hne)
    obtain ⟨hlt, -⟩ := argmin_spec hidx
    obtain ⟨s', hs', hinv⟩ :=
      LayoutInv.partitionLoop hn rest _ _ (h.assign key numel (h.nums_length ▸ hlt))
    exact ⟨s', by rw [partitionLoop_cons, hidx]; exact hs', by simpa using hinv⟩

theorem layoutInv_partitionParams (entry : κ → π) (items : List (κ × ℕ)) {n : ℕ} (hn : 0 < n) :
    ∃ s, partitionParams entry items n = some s ∧
      LayoutInv entry n ((sortByNumel items).map Prod.fst) s := by
  simpa using LayoutInv.partitionLoop hn (sortByNumel items) [] _ (layoutInv_init entry n)

/-! ## The name dict is a bijection onto the slots -/

section Bij
variable [DecidableEq κ]

/-- `key ↦ (param_ps_idx[key], param_loc_idx[key])` maps the names into the filled slots of
    `ps_param_lists`, each slot holding its name's entry, injectively and onto. -/
structure LayoutBij (entry : κ → π) (names : List κ) (s : Partition κ π) : Prop where
  mapsTo : ∀ k ∈ names, ∃ i j, s.locOf k = some (i, j) ∧ slot s.paramLists i j = some (entry k)
  injOn : ∀ k₁ ∈ names, ∀ k₂ ∈ names, s.locOf k₁ = s.locOf k₂ → k₁ = k₂
  surjOn : ∀ i j, (slot s.paramLists i j).isSome → ∃ k ∈ names, s.locOf k = some (i, j)

theorem LayoutInv.locOf_eq_some_iff {entry : κ → π} {n : ℕ} {keys : List κ}
    {s : Partition κ π} (h : LayoutInv entry n keys s) (hk : keys.Nodup) {k : κ} {i j : ℕ} :
    s.locOf k = some (i, j) ↔ (k, i, j) ∈ s.paramLocs :=
  lookup_eq_some_iff_mem (h.keys_eq ▸ hk)

theorem LayoutInv.layoutBij {entry : κ → π} {n : ℕ} {keys : List κ} {s : Partition κ π}
    (h : LayoutInv entry n keys s) (hk : keys.Nodup) : LayoutBij entry keys s where
  mapsTo k hmem := by
    rw [← h.keys_eq] at hmem
    obtain ⟨⟨k', i, j⟩, hr, rfl⟩ := List.mem_map.mp hmem
    exact ⟨i, j, (h.locOf_eq_some_iff hk).mpr hr, h.slot_of_loc _ i j hr⟩
  injOn k₁ h₁ k₂ h₂ heq := by
    rw [← h.keys_eq] at h₁
    obtain ⟨⟨k, i, j⟩, hr, rfl⟩ := List.mem_map.mp h₁
    have hr₂ : (k₂, i, j) ∈ s.paramLocs :=
      (h.locOf_eq_some_iff hk).mp (heq ▸ (h.locOf_eq_some_iff hk).mpr hr)
    exact (Prod.mk.inj (List.inj_on_of_nodup_map h.slots_nodup hr hr₂ rfl)).1
  surjOn i j hs := by
    obtain ⟨k, hr⟩ := h.loc_of_slot i j hs
    refine ⟨k, ?_, (h.locOf_eq_some_iff hk).mpr hr⟩
    rw [← h.keys_eq]
    exact List.mem_map_of_mem _ hr

end Bij

/-! ## Scatter and gather of `run_worker` -/

/-- `lists[i][j] = v`; `none` where Python raises `IndexError`. -/
def setSlot (lists : List (List β)) (i j : ℕ) (v : β) : Option (List (List β)) :=
  if (slot lists i j).isSome then some (lists.modify (·.set j v) i) else none

theorem setSlot_spec {lists : List (List β)} {i j : ℕ} {v : β}
    (h : (slot lists i j).isSome) :
    ∃ l', setSlot lists i j v = some l' ∧ l'.map List.length = lists.map List.length ∧
      ∀ a b, slot l' a b = if a = i ∧ b = j then some v else slot lists a b := by
  refine ⟨_, if_pos h, ?_, fun a b => ?_⟩
  · apply List.ext_getElem?
    intro n
    simp only [List.getElem?_map, List.getElem?_modify]
    cases lists[n]? <;> split_ifs <;> simp
  · rw [slot_modify_set]
    by_cases hab : a = i ∧ b = j
    · obtain ⟨rfl, rfl⟩ := hab
      simp [h]
    · have hab' : ¬ (a = i ∧ b = j ∧ (slot lists a b).isSome) := fun h' => hab ⟨h'.1, h'.2.1⟩
      rw [if_neg hab', if_neg hab]

/-- Whether a slot exists depends only on the lengths of the lists. -/
theorem slot_isSome_of_shape {β' : Type} {l₁ : List (List β)} {l₂ : List (List β')}
    (h : l₁.map List.length = l₂.map List.length) (i j : ℕ) :
    (slot l₁ i j).isSome = (slot l₂ i j).isSome := by
  have hl := congrArg List.length h
  simp only [List.length_map] at hl
  rw [Bool.eq_iff_iff, slot_isSome_iff, slot_isSome_iff]
  constructor
  · rintro ⟨hi, hj⟩
    have h₂ := congrArg (·[i]?) h
    simp [List.getElem?_eq_getElem hi, List.getElem?_eq_getElem (hl ▸ hi)] at h₂
    exact ⟨hl ▸ hi, h₂ ▸ hj⟩
  · rintro ⟨hi, hj⟩
    have h₂ := congrArg (·[i]?) h
    simp [List.getElem?_eq_getElem hi, List.getElem?_eq_getElem (hl ▸ hi)] at h₂
    exact ⟨hl ▸ hi, h₂ ▸ hj⟩

/-- `zip(ps_params, gradients)` slot by slot. -/
theorem slot_zipWith_zip {β' : Type} (l₁ : List (List β)) (l₂ : List (List β')) (i j : ℕ) :
    slot (List.zipWith List.zip l₁ l₂) i j =
      (slot l₁ i j).bind fun a => (slot l₂ i j).map (a, ·) := by
  simp only [slot, List.getElem?_zipWith']
  cases l₁[i]? <;> cases l₂[i]? <;> simp only [Option.map_none', Option.map_some',
    Option.none_bind, Option.some_bind, List.zip_eq_zipWith, List.getElem?_zipWith']
  case some.none a => cases a[j]? <;> rfl
  case some.some a b => cases a[j]? <;> cases b[j]? <;> rfl

/-- The gather of `run_worker`: for each name of the dict, in its order, the value in its slot
    (what `state_dict()[key].copy_(param)` installs). -/
def gatherParams (locs : List (κ × ℕ × ℕ)) (lists : List (List β)) : Option (List (κ × β)) :=
  locs.mapM fun r => (slot lists r.2.1 r.2.2).map (r.1, ·)

/-- Gather returns, for each dict entry, the value in its slot. -/
theorem gatherParams_eq (grad : κ → β) (lists : List (List β)) :
    ∀ (locs : List (κ × ℕ × ℕ)), (∀ r ∈ locs, slot lists r.2.1 r.2.2 = some (grad r.1)) →
      gatherParams locs lists = some (locs.map fun r => (r.1, grad r.1))
  | [], _ => rfl
  | r :: rs, h => by
    have ih := gatherParams_eq grad lists rs fun r' hr' => h r' (List.mem_cons_of_mem _ hr')
    simp only [gatherParams] at ih ⊢
    rw [List.mapM_cons, h r (List.mem_cons_self _ _), ih]
    rfl

section Worker
variable [DecidableEq κ]

/-- The scatter of `run_worker`: for each name of `named_parameters`,
    `grad_lists[param_ps_idx[key]][param_loc_idx[key]] = grad`; `none` on a `KeyError` or an
    `IndexError`. -/
def scatterGrads (locs : List (κ × ℕ × ℕ)) (grad : κ → β) :
    List κ → List (List β) → Option (List (List β))
  | [], lists => some lists
  | key :: rest, lists =>
    (locs.lookup key).bind fun loc =>
      (setSlot lists loc.1 loc.2 (grad key)).bind (scatterGrads locs grad rest)

/-- Scatter writes each name's gradient into its slot and leaves every other slot alone,
    provided every name has a slot and no two names share one. -/
theorem scatterGrads_spec (locs : List (κ × ℕ × ℕ)) (grad : κ → β) :
    ∀ (names : List κ) (lists : List (List β)),
      (∀ k ∈ names, ∃ i j, locs.lookup k = some (i, j) ∧ (slot lists i j).isSome) →
      (∀ k₁ ∈ names, ∀ k₂ ∈ names, ∀ i j,
        locs.lookup k₁ = some (i, j) → locs.lookup k₂ = some (i, j) → k₁ = k₂) →
      ∃ lists', scatterGrads locs grad names lists = some lists' ∧
        lists'.map List.length = lists.map List.length ∧
        (∀ k ∈ names, ∀ i j, locs.lookup k = some (i, j) → slot lists' i j = some (grad k)) ∧
        (∀ i j, (∀ k ∈ names, locs.lookup k ≠ some (i, j)) → slot lists' i j = slot lists i j)
  | [], lists, _, _ => ⟨lists, rfl, rfl, by simp, fun _ _ _ => rfl⟩
  | key :: rest, lists, hex, hinj => by
    obtain ⟨i₀, j₀, hk, hs⟩ := hex key (List.mem_cons_self _ _)
    obtain ⟨l₁, hl₁, hshape₁, hslot₁⟩ := setSlot_spec (v := grad key) hs
    have hex' : ∀ k ∈ rest, ∃ i j, locs.lookup k = some (i, j) ∧ (slot l₁ i j).isSome := by
      intro k hk'
      obtain ⟨i, j, h1, h2⟩ := hex k (List.mem_cons_of_mem _ hk')
      exact ⟨i, j, h1, (slot_isSome_of_shape hshape₁ i j).trans h2⟩
    obtain ⟨l', hl', hshape', hnew, hold⟩ := scatterGrads_spec locs grad rest l₁ hex'
      fun k₁ h₁ k₂ h₂ => hinj k₁ (List.mem_cons_of_mem _ h₁) k₂ (List.mem_cons_of_mem _ h₂)
    refine ⟨l', by simp [scatterGrads, hk, hl₁, hl'], hshape'.trans hshape₁, ?_, ?_⟩
    · intro k hk' i j hkij
      rcases List.mem_cons.mp hk' with rfl | hk'
      · obtain ⟨rfl, rfl⟩ := Prod.mk.inj (Option.some.inj (hkij.symm.trans hk))
        by_cases hr : ∃ k' ∈ rest, locs.lookup k' = some (i, j)
        · obtain ⟨k', hk'', hk'l⟩ := hr
          obtain rfl := hinj _ (List.mem_cons_self _ _) k' (List.mem_cons_of_mem _ hk'') i j hk hk'l
          exact hnew _ hk'' i j hk'l
        · push_neg at hr
          rw [hold i j hr, hslot₁]
          simp
      · exact hnew k hk' i j hkij
    · intro i j hnone
      rw [hold i j fun k hk' => hnone k (List.mem_cons_of_mem _ hk'), hslot₁, if_neg]
      rintro ⟨rfl, rfl⟩
      exact hnone key (List.mem_cons_self _ _) hk

theorem LayoutBij.of_mem_iff {entry : κ → π} {names names' : List κ}
    {s : Partition κ π} (h : LayoutBij entry names s) (hm : ∀ k, k ∈ names ↔ k ∈ names') :
    LayoutBij entry names' s where
  mapsTo k hk := h.mapsTo k ((hm k).mpr hk)
  injOn k₁ h₁ k₂ h₂ := h.injOn k₁ ((hm k₁).mpr h₁) k₂ ((hm k₂).mpr h₂)
  surjOn i j hs := let ⟨k, hk, hl⟩ := h.surjOn i j hs; ⟨k, (hm k).mp hk, hl⟩

/-- Partition layout agreement. On distinct names and `n ≥ 1` shards the partition returns and
    its name dict is a bijection onto the slots of `ps_param_lists`. For any `grad_lists` shaped
    like `ps_param_lists` (the first step's lists of `None`, or the parameter lists a later step
    brought back) and any gradients, the worker's scatter overwrites every slot with its own
    name's gradient, the shard's `zip(ps_params, gradients)` pairs every parameter with its own
    gradient, and gather after scatter gives back every name with its own gradient. -/
theorem partition_layout_agreement (entry : κ → π) (items : List (κ × ℕ))
    (hnames : (items.map Prod.fst).Nodup) {n : ℕ} (hn : 0 < n) :
    ∃ s, partitionParams entry items n = some s ∧ s.paramLists.length = n ∧
      LayoutBij entry (items.map Prod.fst) s ∧
      ∀ (lists : List (List β)), lists.map List.length = s.paramLists.map List.length →
      ∀ grad : κ → β, ∃ lists',
        scatterGrads s.paramLocs grad (items.map Prod.fst) lists = some lists' ∧
        (∀ i j, (slot lists i j).isSome → ∃ k ∈ items.map Prod.fst, s.locOf k = some (i, j) ∧
          slot lists' i j = some (grad k) ∧
          slot (List.zipWith List.zip s.paramLists lists') i j = some (entry k, grad k)) ∧
        gatherParams s.paramLocs lists' =
          some ((sortByNumel items).map fun kn => (kn.1, grad kn.1)) := by
  obtain ⟨s, hs, hinv⟩ := layoutInv_partitionParams entry items hn
  have hperm := (sortByNumel_perm items).map Prod.fst
  have hnodup : ((sortByNumel items).map Prod.fst).Nodup := hperm.nodup_iff.mpr hnames
  have hbij := (hinv.layoutBij hnodup).of_mem_iff fun k => hperm.mem_iff
  refine ⟨s, hs, hinv.lists_length, hbij, fun lists hshape grad => ?_⟩
  obtain ⟨l', hl', -, hnew, -⟩ := scatterGrads_spec s.paramLocs grad (items.map Prod.fst) lists
    (fun k hk => by
      obtain ⟨i, j, h1, h2⟩ := hbij.mapsTo k hk
      exact ⟨i, j, h1, (slot_isSome_of_shape hshape i j).trans (by simp [h2])⟩)
    fun k₁ h₁ k₂ h₂ i j e₁ e₂ => hbij.injOn k₁ h₁ k₂ h₂ (e₁.trans e₂.symm)
  refine ⟨l', hl', fun i j hij => ?_, ?_⟩
  · obtain ⟨k, hk, hloc⟩ := hbij.surjOn i j ((slot_isSome_of_shape hshape i j).symm.trans hij)
    obtain ⟨i', j', hloc', hslot⟩ := hbij.mapsTo k hk
    obtain ⟨rfl, rfl⟩ := Prod.mk.inj (Option.some.inj (hloc'.symm.trans hloc))
    have hg := hnew k hk i' j' hloc
    exact ⟨k, hk, hloc, hg, by rw [slot_zipWith_zip, hslot, hg]; rfl⟩
  · rw [gatherParams_eq grad]
    · have hk := congrArg (List.map fun k => (k, grad k)) hinv.keys_eq
      simp only [List.map_map] at hk
      exact congrArg some hk
    · intro r hr
      have hmem : r.1 ∈ items.map Prod.fst := by
        rw [← hperm.mem_iff, ← hinv.keys_eq]
        exact List.mem_map_of_mem _ hr
      exact hnew r.1 hmem _ _ ((hinv.locOf_eq_some_iff hnodup).mpr hr)

theorem partition_layout_agreement_two_shards :
    [0, 1, 2].Nodup ∧ 0 < 2 ∧ ∃ s, partitionParams id [(0, 5), (1, 7), (2, 3)] 2 = some s ∧
      s.paramLists.length = 2 ∧ LayoutBij id ([(0, 5), (1, 7), (2, 3)].map Prod.fst) s ∧
      ∀ (lists : List (List ℕ)), lists.map List.length = s.paramLists.map List.length →
      ∀ grad : ℕ → ℕ, ∃ lists',
        scatterGrads s.paramLocs grad ([(0, 5), (1, 7), (2, 3)].map Prod.fst) lists = some lists' ∧
        (∀ i j, (slot lists i j).isSome → ∃ k ∈ [(0, 5), (1, 7), (2, 3)].map Prod.fst,
          s.locOf k = some (i, j) ∧ slot lists' i j = some (grad k) ∧
          slot (List.zipWith List.zip s.paramLists lists') i j = some (id k, grad k)) ∧
        gatherParams s.paramLocs lists' =
          some ((sortByNumel [(0, 5), (1, 7), (2, 3)]).map fun kn => (kn.1, grad kn.1)) :=
  ⟨by decide, by decide, partition_layout_agreement id _ (by decide) (by decide)⟩

/-- On distinct names the partition returns, with one list per shard and the name dict a
    bijection onto the filled slots. -/
theorem exists_layoutBij_partitionParams (entry : κ → π) (items : List (κ × ℕ))
    (hnames : (items.map Prod.fst).Nodup) {n : ℕ} (hn : 0 < n) :
    ∃ s, partitionParams entry items n = some s ∧ s.paramLists.length = n ∧
      LayoutBij entry (items.map Prod.fst) s := by
  obtain ⟨s, hs, hinv⟩ := layoutInv_partitionParams entry items hn
  have hperm := (sortByNumel_perm items).map Prod.fst
  exact ⟨s, hs, hinv.lists_length,
    (hinv.layoutBij (hperm.nodup_iff.mpr hnames)).of_mem_iff fun k => hperm.mem_iff⟩

/-! ## Lists shaped like the partition -/

/-- Two lists of lists of one shape with the same slots are equal. -/
theorem slot_ext {l₁ l₂ : List (List β)} (h : l₁.map List.length = l₂.map List.length)
    (hs : ∀ i j, slot l₁ i j = slot l₂ i j) : l₁ = l₂ := by
  have hl := congrArg List.length h
  simp only [List.length_map] at hl
  refine List.ext_getElem hl fun i h₁ h₂ => List.ext_getElem ?_ fun j hj₁ hj₂ => ?_
  · simpa [List.getElem?_eq_getElem h₁, List.getElem?_eq_getElem h₂] using congrArg (·[i]?) h
  · simpa [slot, List.getElem?_eq_getElem h₁, List.getElem?_eq_getElem h₂,
      List.getElem?_eq_getElem hj₁, List.getElem?_eq_getElem hj₂] using hs i j

theorem slot_map_map {β' : Type} (f : β → β') (l : List (List β)) (i j : ℕ) :
    slot (l.map (·.map f)) i j = (slot l i j).map f := by
  simp only [slot, List.getElem?_map]
  cases l[i]? <;> simp [List.getElem?_map]

/-- With names as entries (ring mode), the scatter writes into every slot the gradient of the
    name stored there. -/
theorem LayoutBij.scatterGrads_id {names : List κ} {s : Partition κ κ} (h : LayoutBij id names s)
    {lists : List (List β)} (hshape : lists.map List.length = s.paramLists.map List.length)
    (grad : κ → β) :
    ∃ lists', scatterGrads s.paramLocs grad names lists = some lists' ∧
      lists'.map List.length = lists.map List.length ∧
      ∀ i j, slot lists' i j = (slot s.paramLists i j).map grad := by
  obtain ⟨l', hl', hshape', hnew, -⟩ := scatterGrads_spec s.paramLocs grad names lists
    (fun k hk => by
      obtain ⟨i, j, h1, h2⟩ := h.mapsTo k hk
      exact ⟨i, j, h1, (slot_isSome_of_shape hshape i j).trans (by simp [h2])⟩)
    fun k₁ h₁ k₂ h₂ i j e₁ e₂ => h.injOn k₁ h₁ k₂ h₂ (e₁.trans e₂.symm)
  refine ⟨l', hl', hshape', fun i j => ?_⟩
  cases hsl : slot s.paramLists i j with
  | some k₀ =>
    obtain ⟨k, hk, hloc⟩ := h.surjOn i j (by simp [hsl])
    obtain ⟨i', j', hloc', hslot⟩ := h.mapsTo k hk
    obtain ⟨rfl, rfl⟩ := Prod.mk.inj (Option.some.inj (hloc'.symm.trans hloc))
    obtain rfl : k₀ = k := Option.some.inj (hsl.symm.trans hslot)
    exact hnew k₀ hk i' j' hloc
  | none =>
    have := slot_isSome_of_shape (hshape'.trans hshape) i j
    rw [hsl] at this
    simpa using this

end Worker

end Strn
