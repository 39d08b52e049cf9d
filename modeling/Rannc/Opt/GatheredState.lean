import Rannc.Opt.ParamOrder

/-!
# Gathering the state of all ranks

Under global ids the states of the ranks fit together: what is gathered for a parameter is the state
that the first rank has for it.
-/
namespace Rannc

variable {P S O : Type}

/-- Optimizers on several ranks that were made for the same groups of parameters. -/
structure OptimizerWorld (P S O : Type) [DecidableEq P] where
  world_size : ℕ
  param_groups : List (ParamGroup P O)
  nodup : (paramsOf param_groups).Nodup
  use : ℕ → RankUse P
  opt : ℕ → Optimizer P S O
  params : ∀ r, (opt r).param_groups.map ParamGroup.params =
    (removeUnusedParams (use r) param_groups).2.map ParamGroup.params
  state : ∀ r, (opt r).state.keys ⊆ (opt r).params

variable [DecidableEq P]

theorem foldlM_mergeState {items : List (ℕ × S)} (hitems : (items.map Prod.fst).Nodup)
    (state : Dict ℕ S) : ∃ state', items.foldlM mergeState (some state) = some (some state') ∧
      ∀ i, state'.get i = (state.get i).or (items.lookup i) := by
  induction items generalizing state with
  | nil => exact ⟨state, rfl, fun i => (Option.or_none).symm⟩
  | cons it items ih =>
    obtain ⟨hnot, hnodup⟩ := List.nodup_cons.mp hitems
    obtain ⟨state', hfold, hget⟩ :=
      ih hnodup (if it.1 ∈ state.keys then state else state.set it.1 it.2)
    refine ⟨state', ?_, fun i => ?_⟩
    · rw [List.foldlM_cons]
      exact hfold
    · rw [hget, List.lookup_cons]
      by_cases hi : i = it.1
      · subst hi
        have hnone : items.lookup it.1 = none := by
          rw [List.lookup_eq_none_iff]
          intro e he
          have hne : it.1 ≠ e.1 := fun heq => hnot (heq ▸ List.mem_map_of_mem he)
          simpa using hne
        rw [hnone, Option.or_none, beq_self_eq_true]
        split_ifs with hkey
        · obtain ⟨v, hv⟩ := Option.isSome_iff_exists.mp (Dict.mem_keys_iff.mp hkey)
          rw [hv, Option.some_or]
        · rw [Dict.get_set, if_pos rfl, Dict.get_eq_none_iff.mpr hkey]
          rfl
      · rw [beq_eq_false_iff_ne.mpr hi]
        split_ifs with hkey
        · rfl
        · rw [Dict.get_set, if_neg hi]

theorem mergeStateDict_remove {s1 s2 : StateDict S O} {state1 state2 : Dict ℕ S}
    (h1 : s1.state = some state1) (h2 : s2.state = some state2) :
    ∃ state, mergeStateDict s1 (removeParamsFromState s2 state1.keys) =
        some ⟨some state, mergeParamGroups s1.param_groups s2.param_groups⟩ ∧
      ∀ i, state.get i = (state1.get i).or (state2.get i) := by
  have hrest : ∀ i, (Dict.ofList (state2.entries.filter fun it => it.1 ∉ state1.keys)).get i =
      if i ∉ state1.keys then state2.get i else none := by
    intro i
    rw [Dict.get_ofList_filter state2 fun k => k ∉ state1.keys]
    simp
  generalize hd : Dict.ofList (state2.entries.filter fun it => it.1 ∉ state1.keys) = rest at hrest
  obtain ⟨state, hfold, hget⟩ := foldlM_mergeState rest.nodup state1
  refine ⟨state, ?_, fun i => ?_⟩
  · unfold mergeStateDict removeParamsFromState
    rw [h1, h2]
    simp only [Option.map_some, Option.getD_some]
    rw [hd, hfold]
    rfl
  · rw [hget]
    change (state1.get i).or (rest.get i) = _
    rw [hrest]
    by_cases hkey : i ∈ state1.keys
    · obtain ⟨v, hv⟩ := Option.isSome_iff_exists.mp (Dict.mem_keys_iff.mp hkey)
      rw [hv, Option.some_or, Option.some_or]
    · rw [if_pos hkey]

theorem params_mergeParamGroups {target_groups sub_groups : List (ParamGroup ℕ O)}
    (h : target_groups.length = sub_groups.length) :
    (mergeParamGroups target_groups sub_groups).map ParamGroup.params =
      target_groups.map ParamGroup.params := by
  unfold mergeParamGroups
  apply List.ext_getElem
  · simp [h]
  · intro i h1 h2
    simp [mergeParamGroup]

/-- An option of a group. -/
def optionOf (groups : List (ParamGroup P O)) (j : ℕ) (key : String) : Option O :=
  (groups[j]?).bind fun g => g.options.get key

omit [DecidableEq P] in
theorem optionOf_congr {Q : Type} {groups : List (ParamGroup P O)} {groups' : List (ParamGroup Q O)}
    (h : groups.map ParamGroup.options = groups'.map ParamGroup.options) (j : ℕ) (key : String) :
    optionOf groups j key = optionOf groups' j key := by
  have hget := congrArg (fun l => (l[j]?).bind fun o => o.get key) h
  simp only [List.getElem?_map, Option.bind_map] at hget
  exact hget

theorem optionOf_mergeParamGroups {target_groups sub_groups : List (ParamGroup ℕ O)}
    (h : target_groups.length = sub_groups.length) (j : ℕ) (key : String) :
    optionOf (mergeParamGroups target_groups sub_groups) j key =
      (optionOf sub_groups j key).or (optionOf target_groups j key) := by
  unfold optionOf mergeParamGroups
  rw [List.getElem?_zipWith]
  by_cases hj : j < target_groups.length
  · rw [List.getElem?_eq_getElem hj, List.getElem?_eq_getElem (h ▸ hj)]
    exact Dict.get_foldl_set (Dict.nodup _) _ _
  · rw [List.getElem?_eq_none (not_lt.mp hj), List.getElem?_eq_none (h ▸ not_lt.mp hj)]
    rfl

namespace OptimizerWorld

variable (w : OptimizerWorld P S O) (torch : StateProtocol P S O)

/-- The groups of the optimizer before parameters were removed. -/
def original_param_groups : List (ParamGroup ℕ O) :=
  (torch.state_dict ⟨w.param_groups, Dict.empty⟩).param_groups

def ranks (r : ℕ) : RankOptimizer P S O :=
  ⟨w.opt r, w.original_param_groups torch, (removeUnusedParams (w.use r) w.param_groups).1⟩

def used (r : ℕ) (p : P) : Bool := (w.use r).used_param_ids p

/-- The parameters of a rank, with their positions among all. -/
def positions (r : ℕ) : List (P × ℕ) := usedPositions (w.used r) 0 (paramsOf w.param_groups)

/-- The state that a rank has for the `i`-th of all parameters. -/
def stateAt (i r : ℕ) : Option S := ((paramsOf w.param_groups)[i]?).bind (w.opt r).state.get

variable {w}

theorem original_param_groups_eq :
    w.original_param_groups torch = numberGroups 0 w.param_groups :=
  torch.state_dict_groups _ ⟨w.nodup, fun _ h => absurd h List.not_mem_nil⟩

omit [DecidableEq P] in
theorem paramsOf_congr {Q : Type} {groups groups' : List (ParamGroup P Q)}
    (h : groups.map ParamGroup.params = groups'.map ParamGroup.params) :
    paramsOf groups = paramsOf groups' := by
  unfold paramsOf
  rw [List.flatMap_def, List.flatMap_def, h]

theorem opt_params (r : ℕ) : (w.opt r).params = (w.positions r).map Prod.fst := by
  have hparams := paramsOf_congr (w.params r)
  unfold Optimizer.params positions
  rw [hparams, removeUnusedParams_groups, map_fst_usedPositions]
  unfold paramsOf used
  rw [List.flatMap_map, List.filter_flatMap]

theorem opt_wellFormed (r : ℕ) : (w.opt r).WellFormed := by
  refine ⟨?_, w.state r⟩
  rw [opt_params]
  unfold positions
  rw [map_fst_usedPositions]
  exact w.nodup.filter _

theorem used_order (r : ℕ) :
    (w.ranks torch r).order.used_param_global_order = (w.positions r).map Prod.snd :=
  removeUnusedParams_order (w.use r) w.param_groups

theorem order_get (r i : ℕ) : (w.ranks torch r).order.order_local_to_global.get i =
    ((w.positions r).map Prod.snd)[i]? := by
  rw [← used_order torch]
  exact (removeUnusedParams_consistent (w.use r) w.param_groups).order_local_to_global i

theorem used_of_stateAt {i r : ℕ} {p : P} (hp : (paramsOf w.param_groups)[i]? = some p)
    (h : (w.stateAt i r).isSome) : (p, i) ∈ w.positions r := by
  unfold stateAt at h
  rw [hp] at h
  have hmem := w.state r (Dict.mem_keys_iff.mpr h)
  rw [opt_params] at hmem
  obtain ⟨e, he, rfl⟩ := List.mem_map.mp hmem
  unfold positions at he ⊢
  rw [mem_usedPositions] at he ⊢
  exact ⟨hp, he.2⟩

omit [DecidableEq P] in
/-- The state under other ids, which are different for all that it holds. -/
theorem replaceIds_spec (order : Dict ℕ ℕ) (state : Dict ℕ S)
    (hsome : ∀ j ∈ state.keys, (order.get j).isSome)
    (hinj : ∀ j ∈ state.keys, ∀ j' ∈ state.keys, order.get j = order.get j' → j = j') :
    ∃ state', replaceIds order state = some state' ∧
      ∀ i s, state'.get i = some s ↔ ∃ j, state.get j = some s ∧ order.get j = some i := by
  have hitems : ∃ items, (state.entries.mapM fun it => do
      let pid ← order.get it.1
      return (pid, it.2)) = some items := by
    apply mapM_of_forall_some
    intro it hit
    obtain ⟨pid, hpid⟩ := Option.isSome_iff_exists.mp (hsome it.1 (List.mem_map_of_mem hit))
    rw [hpid]
    rfl
  obtain ⟨items, hitems⟩ := hitems
  have hmem : ∀ i s, (i, s) ∈ items ↔ ∃ j, (j, s) ∈ state.entries ∧ order.get j = some i := by
    intro i s
    constructor
    · intro hmem
      obtain ⟨it, hit, hpid⟩ := exists_of_mem_mapM hitems hmem
      obtain ⟨pid, hget, heq⟩ := Option.bind_eq_some_iff.mp hpid
      obtain ⟨rfl, rfl⟩ := Prod.mk.inj (Option.some.inj heq)
      exact ⟨it.1, hit, hget⟩
    · intro hmem
      obtain ⟨j, hj, hget⟩ := hmem
      apply mem_of_mapM hitems hj
      dsimp only
      rw [hget]
      rfl
  have hkeys : (items.map Prod.fst).Nodup := by
    have hmap := congrArg (List.map (Option.map Prod.fst)) (mapM_eq_some_iff.mp hitems)
    rw [List.map_map, List.map_map] at hmap
    have hpids : state.keys.map order.get = (items.map Prod.fst).map some := by
      rw [Dict.keys, List.map_map, List.map_map]
      refine Eq.trans (List.map_congr_left fun it _ => ?_) hmap
      cases hget : order.get it.1 <;> simp [hget]
    apply List.Nodup.of_map some
    rw [← hpids]
    exact List.Nodup.map_on (fun j hj j' hj' heq => hinj j hj j' hj' heq) state.nodup
  refine ⟨Dict.ofList items, ?_, fun i s => ?_⟩
  · unfold replaceIds
    rw [hitems]
    rfl
  · have hlookup : items.lookup i = some s ↔ (i, s) ∈ items :=
      (Dict.mem_entries_iff (d := ⟨items, hkeys⟩)).symm
    rw [Dict.get_ofList hkeys, hlookup, hmem]
    simp only [Dict.mem_entries_iff]

theorem replaceIds_positions {r : ℕ} {state : Dict ℕ S}
    (hstate : ∀ j, state.get j = ((w.opt r).params[j]?).bind (w.opt r).state.get) :
    ∃ state', replaceIds (w.ranks torch r).order.order_local_to_global state = some state' ∧
      ∀ i, state'.get i = w.stateAt i r := by
  have hnodup := nodup_usedPositions (w.used r) 0 (paramsOf w.param_groups)
  have hentry : ∀ j s, state.get j = some s ↔ ∃ p i, (w.positions r)[j]? = some (p, i) ∧
      (w.opt r).state.get p = some s := by
    intro j s
    rw [hstate, opt_params, List.getElem?_map, Option.bind_eq_some_iff]
    simp only [Option.map_eq_some_iff, Prod.exists, exists_and_right, exists_eq_right]
  have horder : ∀ j ∈ state.keys, ∃ p i, (w.positions r)[j]? = some (p, i) := by
    intro j hj
    obtain ⟨s, hs⟩ := Option.isSome_iff_exists.mp (Dict.mem_keys_iff.mp hj)
    obtain ⟨p, i, hposition, -⟩ := (hentry j s).mp hs
    exact ⟨p, i, hposition⟩
  have hsome : ∀ j ∈ state.keys,
      ((w.ranks torch r).order.order_local_to_global.get j).isSome := by
    intro j hj
    obtain ⟨p, i, hposition⟩ := horder j hj
    rw [order_get torch, List.getElem?_map, hposition]
    rfl
  have hinj : ∀ j ∈ state.keys, ∀ j' ∈ state.keys,
      (w.ranks torch r).order.order_local_to_global.get j =
        (w.ranks torch r).order.order_local_to_global.get j' → j = j' := by
    intro j hj j' _ heq
    obtain ⟨p, i, hposition⟩ := horder j hj
    have hlt : j < ((w.positions r).map Prod.snd).length := by
      rw [List.length_map]
      exact (List.getElem?_eq_some_iff.mp hposition).1
    rw [order_get torch, order_get torch] at heq
    exact (List.getElem?_inj hlt hnodup).mp heq
  obtain ⟨state', hreplace, hget⟩ := replaceIds_spec
    (w.ranks torch r).order.order_local_to_global state hsome hinj
  refine ⟨state', hreplace, fun i => Option.ext fun s => ?_⟩
  rw [hget]
  constructor
  · intro h
    obtain ⟨j, hj, hpid⟩ := h
    obtain ⟨p, i', hposition, hvalue⟩ := (hentry j s).mp hj
    rw [order_get torch, List.getElem?_map, hposition] at hpid
    obtain rfl : i' = i := Option.some.inj hpid
    have hmem_position := mem_usedPositions.mp (List.mem_of_getElem? hposition)
    unfold stateAt
    rw [hmem_position.1]
    exact hvalue
  · intro h
    obtain ⟨p, hp, hvalue⟩ := Option.bind_eq_some_iff.mp h
    have hposition := used_of_stateAt hp (Option.isSome_of_eq_some h)
    obtain ⟨j, hj⟩ := List.mem_iff_getElem?.mp hposition
    refine ⟨j, (hentry j s).mpr ⟨p, i, hj, hvalue⟩, ?_⟩
    rw [order_get torch, List.getElem?_map, hj]
    rfl

/-- A rank sends its state under global ids. -/
theorem exists_globalState (r : ℕ) : ∃ state groups,
    (w.ranks torch r).globalState torch = some ⟨some state, groups⟩ ∧
    (∀ i, state.get i = w.stateAt i r) ∧
    groups.map ParamGroup.options = (w.opt r).param_groups.map ParamGroup.options := by
  obtain ⟨saved, hsaved, hget⟩ := torch.state_dict_state (w.opt r) (opt_wellFormed r)
  obtain ⟨state, hstate, hstate_get⟩ := replaceIds_positions torch hget
  have hnumbered := torch.state_dict_groups (w.opt r) (opt_wellFormed r)
  have hgroup : ∀ g ∈ numberGroups 0 (w.opt r).param_groups,
      (replaceIdsInParamGroup g (w.ranks torch r).order.order_local_to_global).isSome := by
    intro g hg
    have hids : ∀ pid ∈ g.params,
        ((w.ranks torch r).order.order_local_to_global.get pid).isSome := by
      intro pid hpid
      have hmem : pid ∈ paramsOf (numberGroups 0 (w.opt r).param_groups) :=
        List.mem_flatMap.mpr ⟨g, hg, hpid⟩
      rw [paramsOf_numberGroups, List.mem_range'_1] at hmem
      have hlength : pid < ((w.positions r).map Prod.snd).length := by
        have heq := congrArg List.length (opt_params (w := w) r)
        unfold Optimizer.params at heq
        rw [List.length_map] at heq ⊢
        omega
      rw [order_get torch, List.getElem?_eq_getElem hlength]
      rfl
    obtain ⟨params, hparams⟩ := mapM_of_forall_some hids
    unfold replaceIdsInParamGroup
    rw [hparams]
    rfl
  obtain ⟨groups, hgroups⟩ := mapM_of_forall_some hgroup
  refine ⟨state, groups, ?_, hstate_get, ?_⟩
  · have hopt : (w.ranks torch r).opt = w.opt r := rfl
    unfold RankOptimizer.globalState replaceParamIds
    rw [hopt, hsaved, hnumbered, Option.mapM_some, hstate, hgroups]
    rfl
  · have hmap := congrArg (List.map (Option.map ParamGroup.options)) (mapM_eq_some_iff.mp hgroups)
    rw [List.map_map, List.map_map] at hmap
    have hoptions : (numberGroups 0 (w.opt r).param_groups).map (some ∘ ParamGroup.options) =
        groups.map (some ∘ ParamGroup.options) := by
      refine Eq.trans (List.map_congr_left fun g hg => ?_) hmap
      obtain ⟨g', hg'⟩ := Option.isSome_iff_exists.mp (hgroup g hg)
      obtain ⟨params, -, hend⟩ := Option.bind_eq_some_iff.mp hg'
      dsimp only [Function.comp_apply]
      rw [hg', ← Option.some.inj hend]
      rfl
    rw [← List.map_map, ← List.map_map] at hoptions
    have hsame := List.map_injective_iff.mpr (Option.some_injective _) hoptions
    rw [← hsame, options_numberGroups]

/-- The state dict after some ranks. -/
structure Gathered (w : OptimizerWorld P S O) (done : List ℕ) (state_dict : StateDict S O) :
    Prop where
  state : ∃ state, state_dict.state = some state ∧
    ∀ i, state.get i = done.findSome? (w.stateAt i)
  params : state_dict.param_groups.map ParamGroup.params =
    (numberGroups 0 w.param_groups).map ParamGroup.params
  options : ∀ j key value, (∀ r ∈ done, optionOf (w.opt r).param_groups j key = some value) →
    optionOf state_dict.param_groups j key = some value

theorem length_opt_groups (r : ℕ) : (w.opt r).param_groups.length = w.param_groups.length := by
  have hlength := congrArg List.length (w.params r)
  rw [removeUnusedParams_groups] at hlength
  simpa using hlength

theorem Gathered.step {done : List ℕ}
    {gathered : StateDict S O × Dict ℕ (List ℕ)} (h : w.Gathered done gathered.1) (r : ℕ) :
    ∃ gathered', gatherFrom torch (w.ranks torch) gathered r = some gathered' ∧
      w.Gathered (done ++ [r]) gathered'.1 := by
  obtain ⟨state, hstate, hget⟩ := h.state
  obtain ⟨state_r, groups, hglobal, hget_r, hoptions⟩ := exists_globalState (w := w) torch r
  obtain ⟨state', hmerge, hget'⟩ := mergeStateDict_remove hstate
    (rfl : (⟨some state_r, groups⟩ : StateDict S O).state = some state_r)
  have hlength : gathered.1.param_groups.length = groups.length := by
    have h1 := congrArg List.length h.params
    have h2 := congrArg List.length hoptions
    rw [List.length_map, List.length_map] at h1 h2
    rw [h1, length_numberGroups, h2, length_opt_groups]
  refine ⟨(⟨some state', mergeParamGroups gathered.1.param_groups groups⟩,
    appendParamRanks gathered.2 (removeParamsFromState ⟨some state_r, groups⟩ state.keys) r),
    ?_, ?_, ?_, ?_⟩
  · unfold gatherFrom
    dsimp only
    rw [hstate, hglobal]
    dsimp only [Option.map_some, Option.bind_eq_bind, Option.bind_some]
    rw [hmerge]
    rfl
  · refine ⟨state', rfl, fun i => ?_⟩
    rw [hget', hget, hget_r, List.findSome?_append]
    congr 1
    cases hi : w.stateAt i r <;> simp [hi]
  · exact (params_mergeParamGroups hlength).trans h.params
  · intro j key value hall
    dsimp only
    rw [optionOf_mergeParamGroups hlength, optionOf_congr hoptions,
      hall r (List.mem_append_right _ (List.mem_singleton_self r))]
    rfl

/-- The root and then the other ranks. -/
def gatherOrder (world_size root : ℕ) : List ℕ :=
  root :: (List.range world_size).filter (· ≠ root)

theorem mem_gatherOrder {world_size root r : ℕ} (hroot : root < world_size) :
    r ∈ gatherOrder world_size root ↔ r < world_size := by
  unfold gatherOrder
  rw [List.mem_cons, List.mem_filter, List.mem_range, decide_eq_true_iff]
  constructor
  · intro h
    cases h with
    | inl heq => exact heq ▸ hroot
    | inr h => exact h.1
  · intro h
    by_cases heq : r = root
    · exact Or.inl heq
    · exact Or.inr ⟨h, heq⟩

/-- Gathering succeeds. -/
theorem exists_gathered (root : ℕ) :
    ∃ gathered, gatherOptimizerStateDict torch (w.ranks torch) w.world_size root = some gathered ∧
      w.Gathered (gatherOrder w.world_size root) gathered.1 := by
  obtain ⟨state, groups, hglobal, hget, hoptions⟩ := exists_globalState (w := w) torch root
  have hlength : (w.original_param_groups torch).length = groups.length := by
    have h := congrArg List.length hoptions
    rw [List.length_map, List.length_map] at h
    rw [original_param_groups_eq, length_numberGroups, h, length_opt_groups]
  have hstart : w.Gathered [root]
      ⟨some state, mergeParamGroups (w.original_param_groups torch) groups⟩ := by
    refine ⟨⟨state, rfl, fun i => ?_⟩, ?_, ?_⟩
    · rw [hget]
      cases hi : w.stateAt i root <;> simp [hi]
    · dsimp only
      rw [params_mergeParamGroups hlength, original_param_groups_eq]
    · intro j key value hall
      dsimp only
      rw [optionOf_mergeParamGroups hlength, optionOf_congr hoptions,
        hall root (List.mem_singleton_self root)]
      rfl
  have hrun : ∀ (rest done : List ℕ) (gathered : StateDict S O × Dict ℕ (List ℕ)),
      w.Gathered done gathered.1 → ∃ gathered',
        rest.foldlM (gatherFrom torch (w.ranks torch)) gathered = some gathered' ∧
          w.Gathered (done ++ rest) gathered'.1 := by
    intro rest
    induction rest with
    | nil =>
      intro done gathered h
      exact ⟨gathered, rfl, by rwa [List.append_nil]⟩
    | cons r rest ih =>
      intro done gathered h
      obtain ⟨gathered₁, hstep, h₁⟩ := h.step torch r
      obtain ⟨gathered₂, hrest, h₂⟩ := ih _ _ h₁
      refine ⟨gathered₂, ?_, ?_⟩
      · rw [List.foldlM_cons, hstep]
        exact hrest
      · rwa [List.append_assoc] at h₂
  obtain ⟨gathered, hfold, hgathered⟩ := hrun _ [root] (_, appendParamRanks Dict.empty
    (⟨some state, groups⟩ : StateDict S O) root) hstart
  refine ⟨gathered, ?_, hgathered⟩
  unfold gatherOptimizerStateDict
  rw [hglobal]
  exact hfold

end OptimizerWorld

end Rannc
