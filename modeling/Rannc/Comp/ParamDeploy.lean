import Rannc.Comp.ParamRelease

/-!
# Using parameters

A deployment first enters its uses and then only adds ranks and loads tensors, in whatever way it
ends. What a rank does not need is moved to the unused table, still as a use.
-/
namespace Rannc.ParamStorage

variable {τ : Type} {s s' : ParamStorage τ} {rank : ℕ} {sync_on_init : Bool}

theorem putUse_of_new {table : List ParamUse} {u : ParamUse}
    (h : u.key ∉ table.map ParamUse.key) : putUse table u = u :: table := by
  unfold putUse
  congr 1
  rw [List.filter_eq_self]
  intro v hv
  apply decide_eq_true
  intro heq
  exact h (heq ▸ List.mem_map_of_mem hv)

/-- A known parameter is used by a name that is new. -/
theorem Counted.addUse (h : s.Counted) {u : ParamUse}
    (hkey : u.key ∉ s.graph_params.map ParamUse.key)
    (hknown : s.id_local_to_global u.param_id ≠ none) : (addUse u s).Counted := by
  have huses : ∀ id, (ParamStorage.addUse u s).uses id =
      s.uses id + if u.param_id = id then 1 else 0 := by
    intro id
    unfold uses
    dsimp only [ParamStorage.addUse]
    rw [putUse_of_new hkey, List.countP_cons]
    simp only [decide_eq_true_eq]
    exact Nat.add_right_comm _ _ _
  constructor
  · intro id
    rw [huses]
    dsimp only [ParamStorage.addUse]
    by_cases hid : id = u.param_id
    · rw [hid, Function.update_self, if_pos rfl, if_neg (by omega), h.counts]
      congr 1
      split_ifs with hzero
      · rw [hzero]
        rfl
      · push_cast
        rfl
    · rw [Function.update_of_ne hid, if_neg (Ne.symm hid), Nat.add_zero]
      exact h.counts id
  · exact h.inverse
  · intro v hv
    dsimp only [ParamStorage.addUse] at hv
    rw [putUse_of_new hkey] at hv
    cases List.mem_cons.mp hv with
    | inl heq => exact heq ▸ hknown
    | inr hv => exact h.used v hv
  · exact h.unused
  · dsimp only [ParamStorage.addUse]
    rw [putUse_of_new hkey, List.map_cons]
    exact List.nodup_cons.mpr ⟨hkey, h.keys⟩

/-- The names of a graph that are used. -/
def useAll (graph_id : String) (entries : List (String × ℤ)) (s : ParamStorage τ) :
    ParamStorage τ :=
  entries.foldl (fun s it => addUse ⟨graph_id, it.1, it.2⟩ s) s

theorem Counted.useAll (h : s.Counted) {graph_id : String} {entries : List (String × ℤ)}
    (hnodup : (entries.map Prod.fst).Nodup)
    (hnew : ∀ it ∈ entries, (graph_id, it.1) ∉ s.graph_params.map ParamUse.key)
    (hknown : ∀ it ∈ entries, s.id_local_to_global it.2 ≠ none) :
    (useAll graph_id entries s).Counted := by
  induction entries generalizing s with
  | nil => exact h
  | cons it entries ih =>
    obtain ⟨hit, hnodup⟩ := List.nodup_cons.mp hnodup
    have hfirst : (⟨graph_id, it.1, it.2⟩ : ParamUse).key ∉ s.graph_params.map ParamUse.key :=
      hnew it List.mem_cons_self
    apply ih (h.addUse hfirst (hknown it List.mem_cons_self)) hnodup
    · intro it' hit'
      dsimp only [ParamStorage.addUse]
      rw [putUse_of_new hfirst, List.map_cons, List.mem_cons, not_or]
      refine ⟨?_, hnew it' (List.mem_cons_of_mem _ hit')⟩
      intro heq
      have hname : it'.1 = it.1 := (Prod.mk.inj heq).2
      exact hit (hname ▸ List.mem_map_of_mem hit')
    · intro it' hit'
      exact hknown it' (List.mem_cons_of_mem _ hit')

/-- What the rest of a deployment does: it adds ranks and loads distributed parameters. -/
structure Loaded (s s' : ParamStorage τ) : Prop where
  graph_params : s'.graph_params = s.graph_params
  unused_params : s'.unused_params = s.unused_params
  params : s'.params = s.params
  buffer_ids : s'.buffer_ids = s.buffer_ids
  ranks : ∀ id R, s.ranks id = some R → ∃ R', s'.ranks id = some R' ∧ R ⊆ R'
  my_param_ranks : ∀ g id, s.my_param_ranks g id ≠ none → s'.my_param_ranks g id ≠ none
  ref_counts : s'.ref_counts = s.ref_counts
  id_global_to_local : s'.id_global_to_local = s.id_global_to_local
  id_local_to_global : s'.id_local_to_global = s.id_local_to_global

instance : Std.Refl (Loaded (τ := τ)) where
  refl _ := ⟨rfl, rfl, rfl, rfl, fun _ R hR => ⟨R, hR, Finset.Subset.refl R⟩, fun _ _ h => h, rfl,
    rfl, rfl⟩

instance : IsTrans (ParamStorage τ) Loaded where
  trans a b c hab hbc := by
    refine ⟨hbc.graph_params.trans hab.graph_params, hbc.unused_params.trans hab.unused_params,
      hbc.params.trans hab.params, hbc.buffer_ids.trans hab.buffer_ids, ?_,
      fun g id h => hbc.my_param_ranks g id (hab.my_param_ranks g id h),
      hbc.ref_counts.trans hab.ref_counts, hbc.id_global_to_local.trans hab.id_global_to_local,
      hbc.id_local_to_global.trans hab.id_local_to_global⟩
    intro id R hR
    obtain ⟨R₁, hR₁, hsub₁⟩ := hab.ranks id R hR
    obtain ⟨R₂, hR₂, hsub₂⟩ := hbc.ranks id R₁ hR₁
    exact ⟨R₂, hR₂, hsub₁.trans hsub₂⟩

theorem loaded_addRanks (graph_id : String) (param_id : ℤ) (param_ranks : Finset ℕ)
    (s : ParamStorage τ) : Loaded s (addRanks rank graph_id param_id param_ranks s) := by
  refine ⟨rfl, rfl, rfl, rfl, ?_, ?_, rfl, rfl, rfl⟩
  · intro id R hR
    dsimp only [addRanks]
    split_ifs with hempty
    · exact ⟨R, hR, Finset.Subset.refl R⟩
    · by_cases hid : id = param_id
      · rw [hid] at hR
        rw [hid, Function.update_self, hR]
        exact ⟨_, rfl, Finset.subset_union_left⟩
      · rw [Function.update_of_ne hid]
        exact ⟨R, hR, Finset.Subset.refl R⟩
  · intro g id h
    dsimp only [addRanks]
    split_ifs with hmem
    · by_cases hg : g = graph_id
      · rw [hg, Function.update_self]
        by_cases hid : id = param_id
        · rw [hid, Function.update_self]
          exact Option.some_ne_none _
        · rw [Function.update_of_ne hid]
          exact hg ▸ h
      · rw [Function.update_of_ne hg]
        exact h
    · exact h

theorem keeps_atKey {α : Type} (value : Option α) :
    Keeps Loaded (atKey value : StorageM τ α) := by
  cases value with
  | none => exact Keeps.throw ()
  | some a => exact Keeps.pure a

theorem keeps_rankParam (graph_id : String) (id_to_name : ℤ → Option String)
    (param_rank_maps : ParamRanks) (param_graph_set : ParamGraphSet) (param_id : ℤ) :
    Keeps Loaded (rankParam rank graph_id id_to_name param_rank_maps param_graph_set param_id :
      StorageM τ ParamGraphSet) := by
  apply Keeps.foldlM
  intro param_graph_set it _
  apply (keeps_atKey _).bind
  intro param_name
  cases it.2 param_name with
  | none => exact Keeps.pure _
  | some param_ranks =>
    apply (Keeps.modify (loaded_addRanks graph_id param_id param_ranks)).bind
    intro _
    exact Keeps.pure _

theorem keeps_syncParam (id_to_name : ℤ → Option String) (param_id : ℤ) :
    Keeps Loaded (syncParam rank sync_on_init id_to_name param_id : StorageM τ Unit) := by
  have hload : Keeps Loaded (modify fun s => { s with dist_ids := s.dist_ids.erase param_id } :
      StorageM τ Unit) := by
    apply Keeps.modify
    intro s
    exact ⟨rfl, rfl, rfl, rfl, fun _ R hR => ⟨R, hR, Finset.Subset.refl R⟩, fun _ _ h => h, rfl,
      rfl, rfl⟩
  unfold syncParam
  refine Keeps.bind Keeps.get ?_
  intro s
  split_ifs
  · apply Keeps.bind (keeps_atKey _)
    intro _
    refine Keeps.bind Keeps.get ?_
    intro s'
    apply Keeps.bind (keeps_atKey _)
    intro _
    exact hload
  · refine Keeps.bind Keeps.get ?_
    intro s'
    apply Keeps.bind (keeps_atKey _)
    intro _
    exact hload
  · exact Keeps.pure _

theorem keeps_registerGrad (param_id : ℤ) :
    Keeps Loaded (registerGrad rank param_id : StorageM τ Unit) := by
  unfold registerGrad
  refine Keeps.bind Keeps.get ?_
  intro s
  split_ifs
  · refine Keeps.bind Keeps.get ?_
    intro s'
    apply (keeps_atKey _).bind
    intro _
    exact Keeps.pure _
  · exact Keeps.pure _

theorem loaded_deploy (graph_id : String) (graph_params : NamedParams)
    (param_rank_maps : ParamRanks) (enable_zero : Bool) (s : ParamStorage τ) :
    Loaded (useAll graph_id graph_params.entries s)
      (finalState
        (deploy rank sync_on_init graph_id graph_params param_rank_maps enable_zero s)) := by
  have huse : (graph_params.entries.forM fun it => useParam graph_id it.1 it.2) s =
      .ok () (useAll graph_id graph_params.entries s) :=
    forM_modify (f := fun it : String × ℤ => addUse ⟨graph_id, it.1, it.2⟩) _ s
  unfold deploy
  change Loaded _ (finalState (EStateM.bind _ _ s))
  unfold EStateM.bind
  rw [huse]
  refine Keeps.bind Keeps.get ?_ _
  intro s₁
  refine Keeps.bind (Keeps.foldlM (fun b a _ => keeps_rankParam _ _ _ b a) _) ?_
  intro param_graph_set
  refine Keeps.bind ?_ ?_
  · unfold check
    split_ifs
    · exact Keeps.pure ()
    · exact Keeps.throw ()
  · intro _
    refine Keeps.bind (Keeps.forM fun id _ => keeps_syncParam _ id) ?_
    intro _
    split_ifs
    · exact Keeps.forM fun id _ => keeps_registerGrad id
    · exact Keeps.pure ()

theorem Loaded.uses (h : Loaded s s') (id : ℤ) : s'.uses id = s.uses id := by
  unfold ParamStorage.uses
  rw [h.graph_params, h.unused_params, h.id_global_to_local]

theorem Counted.loaded (hs : s.Counted) (h : Loaded s s') : s'.Counted := by
  constructor
  · intro id
    rw [h.ref_counts, h.uses]
    exact hs.counts id
  · rw [h.id_local_to_global, h.id_global_to_local]
    exact hs.inverse
  · rw [h.graph_params, h.id_local_to_global]
    exact hs.used
  · rw [h.unused_params, h.id_local_to_global]
    exact hs.unused
  · rw [h.graph_params]
    exact hs.keys

theorem foldl_putUse_perm {moved table : List ParamUse} (hnodup : (moved.map ParamUse.key).Nodup)
    (hnew : ∀ u ∈ moved, u.key ∉ table.map ParamUse.key) :
    (moved.foldl putUse table).Perm (moved ++ table) := by
  induction moved generalizing table with
  | nil => exact List.Perm.refl table
  | cons u moved ih =>
    obtain ⟨hu, hnodup⟩ := List.nodup_cons.mp hnodup
    rw [List.foldl_cons, putUse_of_new (hnew u List.mem_cons_self)]
    apply (ih hnodup _).trans List.perm_middle
    intro v hv
    rw [List.map_cons, List.mem_cons, not_or]
    refine ⟨?_, hnew v (List.mem_cons_of_mem _ hv)⟩
    intro heq
    exact hu (heq ▸ List.mem_map_of_mem hv)

theorem moveUses_unused {param_id global_id : ℤ} (hkeys : (s.graph_params.map ParamUse.key).Nodup)
    (hnew : ∀ u ∈ s.graph_params, u.param_id = param_id →
      u.key ∉ s.unused_params.map ParamUse.key) :
    (moveUses param_id global_id s).unused_params.Perm
      (((s.graph_params.filter fun u => u.param_id = param_id).map fun u => u.setId global_id) ++
        s.unused_params) := by
  have hfold : (moveUses param_id global_id s).unused_params =
      ((s.graph_params.filter fun u => u.param_id = param_id).map
        fun u => u.setId global_id).foldl putUse s.unused_params := by
    rw [List.foldl_map]
    rfl
  rw [hfold]
  apply foldl_putUse_perm
  · rw [List.map_map]
    exact hkeys.sublist (List.filter_sublist.map _)
  · intro v hv
    obtain ⟨u, hu, rfl⟩ := List.mem_map.mp hv
    obtain ⟨hu, hid⟩ := List.mem_filter.mp hu
    exact hnew u hu (of_decide_eq_true hid)

theorem uses_moveUses {param_id global_id : ℤ} (hkeys : (s.graph_params.map ParamUse.key).Nodup)
    (hnew : ∀ u ∈ s.graph_params, u.param_id = param_id →
      u.key ∉ s.unused_params.map ParamUse.key)
    (hlocal : s.id_global_to_local global_id = some param_id) (id : ℤ) :
    (moveUses param_id global_id s).uses id = s.uses id := by
  have huses : (moveUses param_id global_id s).uses id =
      (s.graph_params.filter fun u => u.param_id ≠ param_id).countP (fun u => u.param_id = id) +
        (((s.graph_params.filter fun u => u.param_id = param_id).map
          fun u => u.setId global_id) ++ s.unused_params).countP
            fun u => s.id_global_to_local u.param_id = some id := by
    unfold uses
    rw [(moveUses_unused hkeys hnew).countP_eq]
    rfl
  have hmoved : ((s.graph_params.filter fun u => u.param_id = param_id).map
      fun u => u.setId global_id).countP (fun u => s.id_global_to_local u.param_id = some id) =
        (s.graph_params.filter fun u => u.param_id = param_id).countP
          fun u => u.param_id = id := by
    rw [List.countP_map]
    apply List.countP_congr
    intro u hu
    have hid : u.param_id = param_id := of_decide_eq_true (List.mem_filter.mp hu).2
    simp [ParamUse.setId, hlocal, hid]
  rw [huses, List.countP_append, hmoved, ← Nat.add_assoc, Nat.add_comm (List.countP _ _)]
  unfold uses
  congr 1
  rw [List.countP_eq_countP_filter_add s.graph_params _ fun u => u.param_id = param_id]
  congr 2
  apply List.filter_congr
  intro u _
  simp

theorem Counted.moveUses (h : s.Counted) {param_id global_id : ℤ}
    (hglobal : s.id_local_to_global param_id = some global_id)
    (hnew : ∀ u ∈ s.graph_params, u.param_id = param_id →
      u.key ∉ s.unused_params.map ParamUse.key) :
    (moveUses param_id global_id s).Counted := by
  constructor
  · intro id
    rw [uses_moveUses h.keys hnew (h.inverse _ _ hglobal)]
    exact h.counts id
  · exact h.inverse
  · intro u hu
    exact h.used u (List.mem_of_mem_filter hu)
  · intro u hu
    rw [(moveUses_unused h.keys hnew).mem_iff] at hu
    cases List.mem_append.mp hu with
    | inl hmoved =>
      obtain ⟨v, _, rfl⟩ := List.mem_map.mp hmoved
      exact ⟨param_id, hglobal⟩
    | inr hold => exact h.unused u hold
  · exact h.keys.sublist (List.filter_sublist.map _)

theorem registerParam_eq {param_id global_id : ℤ} {param_tensor : τ} {buffer distributed : Bool} :
    finalState (registerParam param_id global_id param_tensor buffer distributed s) =
      if s.params param_id = none then addParam param_id global_id param_tensor buffer distributed s
      else s := by
  change finalState (EStateM.bind (check ((s.params param_id).isNone = true)) _ s) = _
  cases hparam : s.params param_id with
  | none => rfl
  | some t => rfl

theorem Counted.addParam (h : s.Counted) {param_id global_id : ℤ} {param_tensor : τ}
    {buffer distributed : Bool} (hunused : s.uses param_id = 0)
    (hown : ∀ id, s.id_local_to_global id = some global_id → id = param_id) :
    (addParam param_id global_id param_tensor buffer distributed s).Counted := by
  have hknown : ∀ u ∈ s.unused_params, ∀ id, s.id_local_to_global id = some u.param_id →
      id ≠ param_id := by
    intro u hu id hid heq
    have hpos : 0 < s.uses id :=
      uses_pos_iff.mpr ⟨_, usedBy_iff.mpr (Or.inr ⟨u, hu, rfl, h.inverse _ _ hid⟩)⟩
    rw [heq, hunused] at hpos
    exact Nat.lt_irrefl 0 hpos
  have hfresh : ∀ u ∈ s.unused_params, u.param_id ≠ global_id := by
    intro u hu heq
    obtain ⟨id, hid⟩ := h.unused u hu
    exact hknown u hu id hid (hown id (heq ▸ hid))
  have huses : ∀ id, (ParamStorage.addParam param_id global_id param_tensor buffer distributed
      s).uses id = s.uses id := by
    intro id
    unfold uses
    congr 1
    apply List.countP_congr
    intro u hu
    simp only [ParamStorage.addParam, Function.update_of_ne (hfresh u hu)]
  constructor
  · intro id
    rw [huses]
    exact h.counts id
  · intro id gl hgl
    dsimp only [ParamStorage.addParam] at hgl ⊢
    by_cases hid : id = param_id
    · rw [hid, Function.update_self] at hgl
      rw [← Option.some.inj hgl, Function.update_self, hid]
    · rw [Function.update_of_ne hid] at hgl
      rw [Function.update_of_ne]
      · exact h.inverse id gl hgl
      · intro heq
        exact hid (hown id (heq ▸ hgl))
  · intro u hu
    dsimp only [ParamStorage.addParam]
    by_cases hid : u.param_id = param_id
    · rw [hid, Function.update_self]
      exact Option.some_ne_none _
    · rw [Function.update_of_ne hid]
      exact h.used u hu
  · intro u hu
    obtain ⟨id, hid⟩ := h.unused u hu
    refine ⟨id, ?_⟩
    dsimp only [ParamStorage.addParam]
    rw [Function.update_of_ne (hknown u hu id hid)]
    exact hid
  · exact h.keys

/-- The uses of a parameter that is used are moved, and its tensor is gone in any case. -/
theorem unregisterParam_eq (h : s.Counted) (param_id : ℤ) :
    finalState (unregisterParam param_id s) = eraseTensor param_id s ∨
      ∃ gl, s.id_local_to_global param_id = some gl ∧
        finalState (unregisterParam param_id s) =
          eraseTensor param_id (moveUses param_id gl s) := by
  have hcheck : ∀ (p : Prop) [Decidable p] (s : ParamStorage τ), finalState (check p s) = s := by
    intro p _ s
    unfold check
    split_ifs <;> rfl
  by_cases hany : s.graph_params.any (fun u => u.param_id = param_id) = true
  · right
    obtain ⟨u, hu, hid⟩ := List.any_eq_true.mp hany
    have hid : u.param_id = param_id := of_decide_eq_true hid
    obtain ⟨gl, hgl⟩ := Option.ne_none_iff_exists'.mp (h.used u hu)
    rw [hid] at hgl
    refine ⟨gl, hgl, ?_⟩
    unfold unregisterParam
    change finalState ((if s.graph_params.any (fun u => u.param_id = param_id) = true
      then _ else _ : StorageM τ Unit) s) = _
    rw [if_pos hany]
    change finalState (EStateM.bind (atKey (s.id_local_to_global param_id)) _ s) = _
    rw [hgl]
    exact hcheck _ _
  · left
    unfold unregisterParam
    change finalState ((if s.graph_params.any (fun u => u.param_id = param_id) = true
      then _ else _ : StorageM τ Unit) s) = _
    rw [if_neg hany]
    exact hcheck _ _

end Rannc.ParamStorage
