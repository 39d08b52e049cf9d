import Rannc.Opt.GatheredState
import Rannc.Opt.TorchOptimizer

/-!
# State round trip

When ranks that share a parameter have the same state for it, every rank gets its state back from
what was gathered.
-/
namespace Rannc

variable {P S O : Type}

theorem findSome?_eq_of_agree {A B : Type} {f : A → Option B} {l : List A} {a : A} (ha : a ∈ l)
    (h : ∀ x ∈ l, f x = none ∨ f x = f a) : l.findSome? f = f a := by
  induction l with
  | nil => exact absurd ha List.not_mem_nil
  | cons x l ih =>
    rw [List.findSome?_cons]
    cases hx : f x with
    | some b =>
      have heq := (h x List.mem_cons_self).resolve_left (by rw [hx]; exact Option.some_ne_none b)
      exact hx.symm.trans heq
    | none =>
      dsimp only
      cases List.mem_cons.mp ha with
      | inl heq =>
        subst heq
        rw [hx, List.findSome?_eq_none_iff]
        intro y hy
        have hy' := h y (List.mem_cons_of_mem _ hy)
        rwa [hx, or_self] at hy'
      | inr hmem => exact ih hmem fun y hy => h y (List.mem_cons_of_mem _ hy)

theorem length_of_groupSizes {Q : Type} {groups : List (ParamGroup P O)}
    {saved_groups : List (ParamGroup Q O)} (h : groupSizes groups = groupSizes saved_groups) :
    groups.length = saved_groups.length := by
  have hlength := congrArg List.length h
  unfold groupSizes at hlength
  rwa [List.length_map, List.length_map] at hlength

theorem map_params_zipWith {groups : List (ParamGroup P O)} {saved_groups : List (ParamGroup ℕ O)}
    (h : groups.length = saved_groups.length) :
    (List.zipWith (fun g ng => { ng with params := g.params }) groups saved_groups).map
      ParamGroup.params = groups.map ParamGroup.params := by
  apply List.ext_getElem
  · simp [h]
  · intro i h1 h2
    simp

theorem map_options_zipWith {groups : List (ParamGroup P O)} {saved_groups : List (ParamGroup ℕ O)}
    (h : groups.length = saved_groups.length) :
    (List.zipWith (fun g ng => { ng with params := g.params }) groups saved_groups).map
      ParamGroup.options = saved_groups.map ParamGroup.options := by
  apply List.ext_getElem
  · simp [h]
  · intro i h1 h2
    simp

theorem keys_subset_of_get {local_state state : Dict ℕ S} {pids : List ℕ}
    (h : ∀ i, local_state.get i = if i ∈ pids then state.get i else none) :
    local_state.keys ⊆ pids := by
  intro i hi
  rw [Dict.mem_keys_iff, h] at hi
  by_contra hnot
  rw [if_neg hnot] at hi
  exact absurd hi Bool.false_ne_true

namespace OptimizerWorld

variable [DecidableEq P] (w : OptimizerWorld P S O) (torch : StateProtocol P S O)

/-- Ranks that use a parameter have the same state for it. -/
def ReplicasAgree : Prop := ∀ r < w.world_size, ∀ r' < w.world_size, ∀ p,
  w.used r p → w.used r' p → (w.opt r).state.get p = (w.opt r').state.get p

/-- A rank has the same state and groups as before. -/
structure Restored (r : ℕ) (opt : Optimizer P S O) : Prop where
  state : ∀ p, opt.state.get p = (w.opt r).state.get p
  params : opt.param_groups.map ParamGroup.params =
    (w.opt r).param_groups.map ParamGroup.params
  options : ∀ j key value,
    (∀ r' < w.world_size, optionOf (w.opt r').param_groups j key = some value) →
    optionOf opt.param_groups j key = some value

/-- An optimizer for the parameters of a rank, whatever state it has. -/
structure LoadsInto (r : ℕ) (target : Optimizer P S O) : Prop where
  params : target.param_groups.map ParamGroup.params =
    (w.opt r).param_groups.map ParamGroup.params
  state : target.state.keys ⊆ target.params

/-- What is gathered has all parameters and every state, and each rank gets its own state from it,
whatever state its optimizer has in the meantime. -/
def StateRoundTrip (root : ℕ) : Prop := ∃ state_dict param_ranks state,
  gatherOptimizerStateDict torch (w.ranks torch) w.world_size root =
    some (state_dict, param_ranks) ∧
  state_dict.state = some state ∧
  (∀ i, i ∈ state.keys ↔ ∃ r < w.world_size, (w.stateAt i r).isSome) ∧
  state_dict.param_groups.map ParamGroup.params =
    (w.original_param_groups torch).map ParamGroup.params ∧
  ∀ r < w.world_size, ∀ target, w.LoadsInto r target → ∃ opt,
    newLoadStateDict torch none { w.ranks torch r with opt := target } state_dict = some opt ∧
      w.Restored r opt

variable {w}

theorem LoadsInto.params_eq {r : ℕ} {target : Optimizer P S O} (h : w.LoadsInto r target) :
    target.params = (w.opt r).params := by
  unfold Optimizer.params paramsOf
  rw [List.flatMap_def, List.flatMap_def, h.params]

theorem LoadsInto.groupSizes_eq {r : ℕ} {target : Optimizer P S O} (h : w.LoadsInto r target) :
    groupSizes target.param_groups = groupSizes (w.opt r).param_groups := by
  have hlengths := congrArg (List.map List.length) h.params
  rwa [List.map_map, List.map_map] at hlengths

theorem LoadsInto.wellFormed {r : ℕ} {target : Optimizer P S O} (h : w.LoadsInto r target) :
    target.WellFormed := by
  refine ⟨?_, h.state⟩
  rw [h.params_eq]
  exact (opt_wellFormed r).nodup

theorem ReplicasAgree.findSome? (h : w.ReplicasAgree) {root r i : ℕ} {p : P}
    (hroot : root < w.world_size) (hr : r < w.world_size) (hp : (p, i) ∈ w.positions r) :
    (gatherOrder w.world_size root).findSome? (w.stateAt i) = w.stateAt i r := by
  obtain ⟨hget, hused⟩ := mem_usedPositions.mp hp
  apply findSome?_eq_of_agree ((mem_gatherOrder hroot).mpr hr)
  intro r' hr'
  cases hstate : w.stateAt i r' with
  | none => exact Or.inl rfl
  | some s =>
    apply Or.inr
    have hpos := used_of_stateAt hget (Option.isSome_of_eq_some hstate)
    have hused' := (mem_usedPositions.mp hpos).2
    have hsame := h r hr r' ((mem_gatherOrder hroot).mp hr') p hused hused'
    rw [← hstate]
    unfold stateAt
    rw [hget]
    exact hsame.symm

/-- The groups keep the positions of the parameters that the rank uses. -/
theorem local_param_groups {state_dict : StateDict S O}
    (h : state_dict.param_groups.map ParamGroup.params =
      (numberGroups 0 w.param_groups).map ParamGroup.params) (r : ℕ) :
    paramsOf (getLocalOptimizerStateDict state_dict
      (w.ranks torch r).order.used_param_global_order).param_groups =
        (w.positions r).map Prod.snd ∧
    groupSizes (getLocalOptimizerStateDict state_dict
      (w.ranks torch r).order.used_param_global_order).param_groups =
        groupSizes (w.opt r).param_groups := by
  rw [used_order torch]
  have hpids : ∀ e ∈ (paramsOf w.param_groups).zipIdx 0,
      e.2 ∈ (w.positions r).map Prod.snd ↔ w.used r e.1 = true := by
    intro e he
    have hget := List.mem_zipIdx_iff_getElem?.mp he
    constructor
    · intro hmem
      obtain ⟨e', he', heq⟩ := List.mem_map.mp hmem
      obtain ⟨hget', hused'⟩ := mem_usedPositions.mp he'
      rw [heq, hget] at hget'
      rwa [Option.some.inj hget']
    · intro hused
      exact List.mem_map_of_mem (mem_usedPositions.mpr ⟨hget, hused⟩)
  obtain ⟨hsizes, hflatten⟩ :=
    filter_numberGroups (w.used r) ((w.positions r).map Prod.snd) 0 w.param_groups hpids
  rw [← h, List.map_map] at hsizes hflatten
  constructor
  · unfold paramsOf getLocalOptimizerStateDict
    dsimp only
    rw [List.flatMap_def, List.map_map]
    exact hflatten
  · have hopt := congrArg (List.map List.length) (w.params r)
    rw [removeUnusedParams_groups, List.map_map, List.map_map, List.map_map] at hopt
    unfold groupSizes getLocalOptimizerStateDict
    rw [List.map_map]
    rw [List.map_map] at hsizes
    exact hsizes.trans hopt.symm

variable {torch}

omit [DecidableEq P] in
theorem local_state {state_dict : StateDict S O} {state : Dict ℕ S}
    (h : state_dict.state = some state) (pids : List ℕ) : ∃ local_state,
      (getLocalOptimizerStateDict state_dict pids).state = some local_state ∧
      ∀ i, local_state.get i = if i ∈ pids then state.get i else none := by
  refine ⟨Dict.ofList (state.entries.filter fun it => it.1 ∈ pids), ?_, fun i => ?_⟩
  · unfold getLocalOptimizerStateDict
    rw [h]
    rfl
  · rw [Dict.get_ofList_filter state fun k => k ∈ pids]
    simp

theorem get_loaded {r : ℕ} {local_state : Dict ℕ S} {opt : Optimizer P S O}
    (hloaded : ∀ p, opt.state.get p = if p ∈ (w.opt r).params then
      (((w.positions r).map Prod.snd)[(w.opt r).params.idxOf p]?).bind local_state.get else none)
    (hlocal : ∀ p i, (p, i) ∈ w.positions r → local_state.get i = w.stateAt i r) (p : P) :
    opt.state.get p = (w.opt r).state.get p := by
  rw [hloaded]
  split_ifs with hp
  · have hlt := List.idxOf_lt_length_of_mem hp
    have hidx := List.getElem?_eq_getElem hlt
    rw [List.getElem_idxOf hlt] at hidx
    rw [opt_params, List.getElem?_map] at hidx
    obtain ⟨⟨p', i⟩, hposition, rfl⟩ := Option.map_eq_some_iff.mp hidx
    have hmem := List.mem_of_getElem? hposition
    rw [opt_params, List.getElem?_map, hposition]
    change local_state.get i = _
    rw [hlocal _ i hmem]
    unfold stateAt
    rw [(mem_usedPositions.mp hmem).1]
    rfl
  · exact (Dict.get_eq_none_iff.mpr fun hkey => hp (w.state r hkey)).symm

/-- A rank is restored from what was gathered. -/
theorem ReplicasAgree.restored (h : w.ReplicasAgree) {root r : ℕ} (hroot : root < w.world_size)
    (hr : r < w.world_size) {state_dict : StateDict S O}
    (hgathered : w.Gathered (gatherOrder w.world_size root) state_dict)
    {target : Optimizer P S O} (htarget : w.LoadsInto r target) : ∃ opt,
    newLoadStateDict torch none { w.ranks torch r with opt := target } state_dict = some opt ∧
      w.Restored r opt := by
  obtain ⟨state, hstate, hget⟩ := hgathered.state
  obtain ⟨hparams, hsizes⟩ := local_param_groups torch hgathered.params r
  obtain ⟨local_state, hlocal, hlocal_get⟩ :=
    local_state hstate (w.ranks torch r).order.used_param_global_order
  rw [used_order torch] at hlocal_get
  have hnodup : (paramsOf (getLocalOptimizerStateDict state_dict
      (w.ranks torch r).order.used_param_global_order).param_groups).Nodup := by
    rw [hparams]
    exact nodup_usedPositions _ _ _
  have hkeys : local_state.keys ⊆ paramsOf (getLocalOptimizerStateDict state_dict
      (w.ranks torch r).order.used_param_global_order).param_groups := by
    rw [hparams]
    exact keys_subset_of_get hlocal_get
  rw [← htarget.groupSizes_eq] at hsizes
  obtain ⟨opt, hload, hgroups, hloaded⟩ := torch.load_state target _ local_state
    htarget.wellFormed hlocal hnodup hkeys hsizes
  rw [hparams, htarget.params_eq] at hloaded
  have hlength := length_of_groupSizes hsizes.symm
  refine ⟨opt, hload, get_loaded hloaded fun p i hposition => ?_, ?_, ?_⟩
  · rw [hlocal_get, if_pos (List.mem_map_of_mem hposition), hget]
    exact h.findSome? hroot hr hposition
  · rw [hgroups, ← htarget.params]
    exact map_params_zipWith hlength
  · intro j key value hall
    have hoptions : opt.param_groups.map ParamGroup.options =
        state_dict.param_groups.map ParamGroup.options := by
      rw [hgroups, map_options_zipWith hlength]
      unfold getLocalOptimizerStateDict
      rw [List.map_map]
      rfl
    rw [optionOf_congr hoptions]
    exact hgathered.options j key value fun r' hr' => hall r' ((mem_gatherOrder hroot).mp hr')

/-- Without ZeRO the state of the optimizers is gathered and restored. -/
theorem stateRoundTrip (w : OptimizerWorld P S O) (torch : StateProtocol P S O)
    (h : w.ReplicasAgree) {root : ℕ} (hroot : root < w.world_size) :
    w.StateRoundTrip torch root := by
  obtain ⟨⟨state_dict, param_ranks⟩, hgather, hgathered⟩ := exists_gathered (w := w) torch root
  obtain ⟨state, hstate, hget⟩ := hgathered.state
  refine ⟨state_dict, param_ranks, state, hgather, hstate, fun i => ?_, ?_, fun r hr => ?_⟩
  · rw [Dict.mem_keys_iff, hget, List.findSome?_isSome_iff]
    exact exists_congr fun r => and_congr_left fun _ => mem_gatherOrder hroot
  · rw [original_param_groups_eq]
    exact hgathered.params
  · exact fun target htarget => h.restored hroot hr hgathered htarget

/-- Parameter `12` is on both of two ranks, the others on one. -/
def twoStages : OptimizerWorld ℕ ℕ ℕ where
  world_size := 2
  param_groups := [⟨[10, 11], Dict.ofList [("lr", 1)]⟩, ⟨[12], Dict.ofList [("lr", 2)]⟩]
  nodup := by decide
  use := fun r => ⟨fun p => p = 12 ∨ p = 10 + r % 2, false, fun _ => (0, 0)⟩
  opt := fun r => {
    param_groups := [⟨[10, 11].filter fun p => p = 12 ∨ p = 10 + r % 2, Dict.ofList [("lr", 1)]⟩,
      ⟨[12], Dict.ofList [("lr", 2)]⟩]
    state := if r % 2 = 0 then Dict.ofList [(10, 20), (12, 30)]
      else Dict.ofList [(11, 21), (12, 30)] }
  params := by
    intro r
    rw [removeUnusedParams_groups]
    simp
  state := by
    intro r
    cases Nat.mod_two_eq_zero_or_one r with
    | inl h => rw [h]; decide
    | inr h => rw [h]; decide

theorem twoStages_replicasAgree : twoStages.ReplicasAgree := by
  intro r hr r' hr' p hused hused'
  have hmod : r % 2 = r' % 2 ∨ p = 12 := by
    have h : p = 12 ∨ p = 10 + r % 2 := of_decide_eq_true hused
    have h' : p = 12 ∨ p = 10 + r' % 2 := of_decide_eq_true hused'
    omega
  unfold twoStages
  dsimp only
  cases hmod with
  | inl h => rw [h]
  | inr h =>
    subst h
    split_ifs <;> rfl

/-- A new optimizer of the second rank. -/
def secondAfresh : Optimizer ℕ ℕ ℕ where
  param_groups := [⟨[11], Dict.ofList [("lr", 7)]⟩, ⟨[12], Dict.ofList [("lr", 8)]⟩]
  state := Dict.empty

theorem stateRoundTrip_twoStages :
    twoStages.StateRoundTrip torchOptimizer 0 ∧ twoStages.LoadsInto 1 secondAfresh :=
  ⟨stateRoundTrip twoStages torchOptimizer twoStages_replicasAgree (by decide),
    ⟨by decide, by decide⟩⟩

end OptimizerWorld

end Rannc
