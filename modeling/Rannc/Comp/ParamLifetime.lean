import Rannc.Comp.ParamDeploy

/-!
# The lifetime of parameters

In every history of calls the entries of a parameter are there until the last graph that uses it is
released. Then they go, except for marks that a release does not look at.
-/
namespace Rannc.ParamStorage

variable {τ : Type} {s s' : ParamStorage τ} {rank : ℕ} {sync_on_init : Bool}

/-- No container mentions the parameter. -/
structure Untraced (s : ParamStorage τ) (param_id : ℤ) : Prop where
  params : s.params param_id = none
  ranks : s.ranks param_id = none
  my_param_ranks : ∀ g, s.my_param_ranks g param_id = none
  ref_counts : s.ref_counts param_id = none
  id_local_to_global : s.id_local_to_global param_id = none
  id_global_to_local : ∀ gl, s.id_global_to_local gl ≠ some param_id
  buffer_ids : param_id ∉ s.buffer_ids
  dist_ids : param_id ∉ s.dist_ids

/-- A call leaves the entries of a parameter. The tensor is the one that `unregisterParam` is there
to take out, and the mark of a distributed parameter is one that `deploy` takes back. -/
structure Kept (op : StorageOp τ) (s s' : ParamStorage τ) (param_id : ℤ) : Prop where
  params : ∀ t, s.params param_id = some t → op ≠ .unregisterParam param_id →
    s'.params param_id = some t
  ranks : ∀ R, s.ranks param_id = some R → ∃ R', s'.ranks param_id = some R' ∧ R ⊆ R'
  my_param_ranks : ∀ g, s.my_param_ranks g param_id ≠ none → s'.my_param_ranks g param_id ≠ none
  ref_counts : s.ref_counts param_id ≠ none → s'.ref_counts param_id ≠ none
  ids : s.id_local_to_global param_id ≠ none → s'.Known param_id
  buffer_ids : param_id ∈ s.buffer_ids → param_id ∈ s'.buffer_ids

/-- The entries of a parameter go with the last graph that uses it, and no others do. -/
structure Exact (op : StorageOp τ) (s s' : ParamStorage τ) : Prop where
  graph : ∀ g, op = .releaseGraphParams g → ∀ id, ¬s'.UsedBy g id
  removed : ∀ g, op = .releaseGraphParams g → ∀ id, s.LastUser g id → s'.Untraced id
  kept : ∀ id, (∀ g, op = .releaseGraphParams g → ¬s.LastUser g id) →
    s.id_local_to_global id ≠ none → Kept op s s' id

/-- Ids are given anew only if no graph uses them, and never to two parameters. Graphs use known
parameters and give them names that are free. -/
def CallOk (s : ParamStorage τ) : StorageOp τ → Prop
  | .registerParam param_id global_id _ _ _ => s.uses param_id = 0 ∧
      ∀ id, s.id_local_to_global id = some global_id → id = param_id
  | .deploy graph_id graph_params _ _ => ∀ it ∈ graph_params.entries,
      (graph_id, it.1) ∉ s.graph_params.map ParamUse.key ∧ s.id_local_to_global it.2 ≠ none
  | .unregisterParam param_id => ∀ u ∈ s.graph_params, u.param_id = param_id →
      u.key ∉ s.unused_params.map ParamUse.key
  | .releaseGraphParams _ => True

/-- What a release does not look at: marks of buffers and of distributed parameters, ranks by graph,
and global ids from before. -/
def Unmarked (s : ParamStorage τ) (param_id : ℤ) : Prop :=
  param_id ∉ s.buffer_ids ∧ param_id ∉ s.dist_ids ∧ (∀ g, s.my_param_ranks g param_id = none) ∧
    ∀ gl, s.id_global_to_local gl = some param_id → s.id_local_to_global param_id = some gl

theorem Kept.refl (h : s.Counted) (op : StorageOp τ) (id : ℤ) : Kept op s s id := by
  refine ⟨fun _ ht _ => ht, fun R hR => ⟨R, hR, Finset.Subset.refl R⟩, fun _ hr => hr,
    fun hr => hr, ?_, fun hb => hb⟩
  intro hid
  obtain ⟨gl, hgl⟩ := Option.ne_none_iff_exists'.mp hid
  exact ⟨gl, hgl, h.inverse _ _ hgl⟩

theorem kept_addParam (h : s.Counted) {op : StorageOp τ} {param_id global_id : ℤ}
    {param_tensor : τ} {buffer distributed : Bool} (hparam : s.params param_id = none)
    (hown : ∀ id, s.id_local_to_global id = some global_id → id = param_id) (id : ℤ) :
    Kept op s (addParam param_id global_id param_tensor buffer distributed s) id := by
  refine ⟨?_, fun R hR => ⟨R, hR, Finset.Subset.refl R⟩, fun _ hr => hr, fun hr => hr, ?_, ?_⟩
  · intro t ht _
    dsimp only [addParam]
    rw [Function.update_of_ne]
    · exact ht
    · rintro rfl
      exact nomatch hparam.symm.trans ht
  · intro hid
    obtain ⟨gl, hgl⟩ := Option.ne_none_iff_exists'.mp hid
    unfold Known
    dsimp only [addParam]
    by_cases heq : id = param_id
    · rw [heq, Function.update_self]
      exact ⟨global_id, rfl, Function.update_self ..⟩
    · rw [Function.update_of_ne heq]
      refine ⟨gl, hgl, ?_⟩
      rw [Function.update_of_ne]
      · exact h.inverse _ _ hgl
      · rintro rfl
        exact heq (hown id hgl)
  · intro hb
    dsimp only [addParam]
    split_ifs
    · exact Finset.mem_insert_of_mem hb
    · exact hb

theorem kept_eraseTensor (h : s.Counted) (param_id id : ℤ) :
    Kept (.unregisterParam param_id) s (eraseTensor param_id s) id := by
  refine ⟨?_, fun R hR => ⟨R, hR, Finset.Subset.refl R⟩, fun _ hr => hr, fun hr => hr,
    (Kept.refl h (.unregisterParam param_id) id).ids, fun hb => hb⟩
  intro t ht hop
  dsimp only [eraseTensor]
  rw [Function.update_of_ne]
  · exact ht
  · rintro rfl
    exact hop rfl

theorem useAll_frame (graph_id : String) (entries : List (String × ℤ)) (s : ParamStorage τ) :
    let s' := useAll graph_id entries s
    s'.params = s.params ∧ s'.ranks = s.ranks ∧ s'.my_param_ranks = s.my_param_ranks ∧
      s'.buffer_ids = s.buffer_ids ∧ s'.id_local_to_global = s.id_local_to_global ∧
      ∀ id, s.ref_counts id ≠ none → s'.ref_counts id ≠ none := by
  induction entries generalizing s with
  | nil => exact ⟨rfl, rfl, rfl, rfl, rfl, fun _ h => h⟩
  | cons it entries ih =>
    obtain ⟨hparams, hranks, hmine, hbuffer, hids, hcounts⟩ :=
      ih (addUse ⟨graph_id, it.1, it.2⟩ s)
    refine ⟨hparams, hranks, hmine, hbuffer, hids, ?_⟩
    intro id hid
    apply hcounts
    dsimp only [addUse]
    by_cases heq : id = it.2
    · rw [heq, Function.update_self]
      exact Option.some_ne_none _
    · rw [Function.update_of_ne heq]
      exact hid

theorem kept_deploy {op : StorageOp τ} {graph_id : String} {entries : List (String × ℤ)}
    (hload : Loaded (useAll graph_id entries s) s') (h : s'.Counted) (id : ℤ) :
    Kept op s s' id := by
  obtain ⟨hparams, hranks, hmine, hbuffer, hids, hcounts⟩ := useAll_frame graph_id entries s
  constructor
  · intro t ht _
    rw [hload.params, hparams]
    exact ht
  · intro R hR
    exact hload.ranks id R (hranks ▸ hR)
  · intro g hg
    exact hload.my_param_ranks g id (hmine ▸ hg)
  · intro hr
    rw [hload.ref_counts]
    exact hcounts id hr
  · intro hid
    obtain ⟨gl, hgl⟩ := Option.ne_none_iff_exists'.mp hid
    rw [← hids, ← hload.id_local_to_global] at hgl
    exact ⟨gl, hgl, h.inverse _ _ hgl⟩
  · intro hb
    rw [hload.buffer_ids, hbuffer]
    exact hb

theorem not_usedBy_afterRelease (graph_id : String) (id : ℤ) :
    ¬(s.afterRelease graph_id).UsedBy graph_id id := by
  intro hused
  cases usedBy_iff.mp hused with
  | inl h =>
    obtain ⟨u, hu, hg, -⟩ := h
    exact of_decide_eq_true (List.mem_filter.mp hu).2 hg
  | inr h =>
    obtain ⟨u, hu, hg, -⟩ := h
    exact of_decide_eq_true (List.mem_filter.mp hu).2 hg

theorem kept_afterRelease (h : s.Counted) {op : StorageOp τ} {graph_id : String} {id : ℤ}
    (hlast : ¬s.LastUser graph_id id) : Kept op s (s.afterRelease graph_id) id := by
  have hgone : ¬s.Gone (s.usedIds graph_id) id := h.gone_iff.not.mpr hlast
  constructor
  · intro t ht _
    dsimp only [afterRelease, eraseGraph, released]
    rw [if_neg hgone]
    exact ht
  · intro R hR
    dsimp only [afterRelease, eraseGraph, released]
    rw [if_neg hgone]
    exact ⟨R, hR, Finset.Subset.refl R⟩
  · exact fun _ hr => hr
  · intro hr
    dsimp only [afterRelease, eraseGraph, released]
    rw [if_neg hgone, Option.map_eq_none_iff.ne]
    exact hr
  · intro hid
    obtain ⟨gl, hgl⟩ := Option.ne_none_iff_exists'.mp hid
    refine ⟨gl, ?_, h.afterRelease_local hlast (h.inverse _ _ hgl)⟩
    rw [h.afterRelease_global, if_neg hlast]
    exact hgl
  · exact fun hb => hb

theorem untraced_afterRelease_iff (h : s.Counted) {graph_id : String} {id : ℤ}
    (hlast : s.LastUser graph_id id) :
    (s.afterRelease graph_id).Untraced id ↔ s.Unmarked id := by
  have hgone : s.Gone (s.usedIds graph_id) id := h.gone_iff.mpr hlast
  constructor
  · intro htrace
    refine ⟨htrace.buffer_ids, htrace.dist_ids, htrace.my_param_ranks, ?_⟩
    intro gl hgl
    by_contra hne
    apply htrace.id_global_to_local gl
    dsimp only [afterRelease, eraseGraph, released]
    rw [hgl, Option.filter_some, if_pos]
    simpa using Or.inr hne
  · rintro ⟨hbuffer, hdist, hmine, hglobal⟩
    refine ⟨if_pos hgone, if_pos hgone, hmine, if_pos hgone, if_pos hgone, ?_, hbuffer, hdist⟩
    intro gl hgl
    dsimp only [afterRelease, eraseGraph, released] at hgl
    obtain ⟨hlocal, hkeep⟩ := Option.filter_eq_some_iff.mp hgl
    exact of_decide_eq_true hkeep ⟨hgone, hglobal gl hlocal⟩

theorem step_counted (h : s.Counted) {op : StorageOp τ} (hok : s.CallOk op) :
    (step rank sync_on_init s op).Counted := by
  cases op with
  | registerParam param_id global_id param_tensor buffer distributed =>
    change (finalState (registerParam param_id global_id param_tensor buffer distributed s)).Counted
    rw [registerParam_eq]
    split_ifs
    · exact h.addParam hok.1 hok.2
    · exact h
  | deploy graph_id graph_params param_rank_maps enable_zero =>
    apply Counted.loaded _ (loaded_deploy graph_id graph_params param_rank_maps enable_zero s)
    exact h.useAll graph_params.nodup (fun it hit => (hok it hit).1) fun it hit => (hok it hit).2
  | unregisterParam param_id =>
    change (finalState (unregisterParam param_id s)).Counted
    cases unregisterParam_eq h param_id with
    | inl heq =>
      rw [heq]
      exact ⟨h.counts, h.inverse, h.used, h.unused, h.keys⟩
    | inr hmoved =>
      obtain ⟨gl, hgl, heq⟩ := hmoved
      have hcounted := h.moveUses hgl hok
      rw [heq]
      exact ⟨hcounted.counts, hcounted.inverse, hcounted.used, hcounted.unused, hcounted.keys⟩
  | releaseGraphParams graph_id =>
    change (finalState (releaseGraphParams graph_id s)).Counted
    rw [releaseGraphParams_eq h]
    exact h.afterRelease graph_id

theorem step_kept (h : s.Counted) {op : StorageOp τ} (hok : s.CallOk op)
    (hop : ∀ g, op ≠ .releaseGraphParams g) (id : ℤ) :
    Kept op s (step rank sync_on_init s op) id := by
  cases op with
  | registerParam param_id global_id param_tensor buffer distributed =>
    change Kept _ s
      (finalState (registerParam param_id global_id param_tensor buffer distributed s)) id
    rw [registerParam_eq]
    split_ifs with hparam
    · exact kept_addParam h hparam hok.2 id
    · exact Kept.refl h _ id
  | deploy graph_id graph_params param_rank_maps enable_zero =>
    exact kept_deploy (loaded_deploy graph_id graph_params param_rank_maps enable_zero s)
      (step_counted h hok) id
  | unregisterParam param_id =>
    change Kept _ s (finalState (unregisterParam param_id s)) id
    have hkept := kept_eraseTensor h param_id id
    cases unregisterParam_eq h param_id with
    | inl heq =>
      rw [heq]
      exact hkept
    | inr hmoved =>
      obtain ⟨gl, -, heq⟩ := hmoved
      rw [heq]
      exact ⟨hkept.params, hkept.ranks, hkept.my_param_ranks, hkept.ref_counts, hkept.ids,
        hkept.buffer_ids⟩
  | releaseGraphParams graph_id => exact absurd rfl (hop graph_id)

theorem step_exact_iff (h : s.Counted) {op : StorageOp τ} (hok : s.CallOk op) :
    Exact op s (step rank sync_on_init s op) ↔
      ∀ g, op = .releaseGraphParams g → ∀ id, s.LastUser g id → s.Unmarked id := by
  by_cases hop : ∃ g, op = .releaseGraphParams g
  · obtain ⟨graph_id, rfl⟩ := hop
    have hstep : step rank sync_on_init s (.releaseGraphParams graph_id) =
        s.afterRelease graph_id :=
      congrArg finalState (releaseGraphParams_eq h graph_id)
    rw [hstep]
    constructor
    · intro hexact g hg id hlast
      obtain rfl := StorageOp.releaseGraphParams.inj hg
      exact (untraced_afterRelease_iff h hlast).mp (hexact.removed graph_id rfl id hlast)
    · intro hmarks
      constructor
      · intro g hg id
        obtain rfl := StorageOp.releaseGraphParams.inj hg
        exact not_usedBy_afterRelease graph_id id
      · intro g hg id hlast
        obtain rfl := StorageOp.releaseGraphParams.inj hg
        exact (untraced_afterRelease_iff h hlast).mpr (hmarks graph_id rfl id hlast)
      · intro id hlast _
        exact kept_afterRelease h (hlast graph_id rfl)
  · have hnot : ∀ g, op ≠ .releaseGraphParams g := fun g hg => hop ⟨g, hg⟩
    apply iff_of_true
    · exact ⟨fun g hg => absurd hg (hnot g), fun g hg => absurd hg (hnot g),
        fun id _ _ => step_kept h hok hnot id⟩
    · exact fun g hg => absurd hg (hnot g)

theorem counted_empty : (empty : ParamStorage τ).Counted :=
  ⟨fun _ => rfl, nofun, nofun, nofun, List.nodup_nil⟩

/-- Every call of the history is made as it should be. -/
def HistoryOk (rank : ℕ) (sync_on_init : Bool) (history : List (StorageOp τ)) : Prop :=
  ∀ before op after, history = before ++ op :: after → (run rank sync_on_init before).CallOk op

theorem run_append (before : List (StorageOp τ)) (op : StorageOp τ) :
    run rank sync_on_init (before ++ [op]) =
      step rank sync_on_init (run rank sync_on_init before) op := by
  unfold run
  rw [List.foldl_append]
  rfl

theorem run_counted {history : List (StorageOp τ)} (h : HistoryOk rank sync_on_init history) :
    (run rank sync_on_init history).Counted := by
  induction history using List.reverseRecOn with
  | nil => exact counted_empty
  | append_singleton before op ih =>
    rw [run_append]
    apply step_counted
    · apply ih
      intro before' op' after hbefore
      apply h before' op' (after ++ [op])
      rw [hbefore, List.append_assoc]
      rfl
    · exact h before op [] rfl

/-- In a history of proper calls the entries of parameters go exactly with their last users, if the
parameters that go have no marks that a release does not look at. -/
theorem run_exact_iff {history : List (StorageOp τ)} (h : HistoryOk rank sync_on_init history)
    {before after : List (StorageOp τ)} {op : StorageOp τ} (hop : history = before ++ op :: after) :
    Exact op (run rank sync_on_init before) (run rank sync_on_init (before ++ [op])) ↔
      ∀ g, op = .releaseGraphParams g →
        ∀ id, (run rank sync_on_init before).LastUser g id →
          (run rank sync_on_init before).Unmarked id := by
  rw [run_append]
  apply step_exact_iff
  · apply run_counted
    intro before' op' after' hbefore
    apply h before' op' (after' ++ op :: after)
    rw [hop, hbefore, List.append_assoc]
    rfl
  · exact h before op after hop

theorem HistoryOk.append {before : List (StorageOp τ)} (op : StorageOp τ)
    (h : HistoryOk rank sync_on_init before) (hop : (run rank sync_on_init before).CallOk op) :
    HistoryOk rank sync_on_init (before ++ [op]) := by
  intro before' op' after' heq
  cases after' using List.reverseRecOn with
  | nil =>
    obtain ⟨rfl, hlast⟩ := List.append_inj' heq rfl
    obtain rfl := List.singleton_inj.mp hlast
    exact hop
  | append_singleton after' last =>
    rw [← List.cons_append, ← List.append_assoc] at heq
    obtain ⟨heq, -⟩ := List.append_inj' heq rfl
    exact h before' op' after' heq

/-- Two graphs share a parameter of rank 0, and the first has one of its own. -/
def sharedParam : List (StorageOp Unit) :=
  [.registerParam 1 1 () false false, .registerParam 2 2 () false false,
    .deploy "g" ⟨[("v", 2), ("w", 1)], by decide⟩ [("sg", fun _ => some {0})] false,
    .deploy "h" ⟨[("w", 1)], by decide⟩ [("sg", fun _ => some {0})] false]

theorem sharedParam_ok : HistoryOk 1 true sharedParam := by
  have hempty : HistoryOk (τ := Unit) 1 true [] := by
    intro before op after heq
    exact absurd heq.symm (by simp)
  have hfirst : HistoryOk (τ := Unit) 1 true ([] ++ [.registerParam 1 1 () false false]) :=
    hempty.append _ ⟨rfl, nofun⟩
  have hsecond := hfirst.append (.registerParam 2 2 () false false) ⟨by decide, fun id hid => by
    by_cases hone : id = 1
    · subst hone
      exact absurd hid (by decide)
    · have hnone : (run 1 true [.registerParam 1 1 () false false]).id_local_to_global id = none :=
        Function.update_of_ne hone _ _
      exact nomatch hnone.symm.trans hid⟩
  have hthird := hsecond.append
    (.deploy "g" ⟨[("v", 2), ("w", 1)], by decide⟩ [("sg", fun _ => some {0})] false) (by
      show ∀ it ∈ [("v", (2 : ℤ)), ("w", 1)], _
      simp only [List.forall_mem_cons]
      exact ⟨⟨by decide, by decide⟩, ⟨by decide, by decide⟩, by simp⟩)
  exact hthird.append (.deploy "h" ⟨[("w", 1)], by decide⟩ [("sg", fun _ => some {0})] false) (by
    show ∀ it ∈ [("w", (1 : ℤ))], _
    simp only [List.forall_mem_cons]
    exact ⟨⟨by decide, by decide⟩, by simp⟩)

/-- The first graph goes, and with it its own parameter but not the shared one. -/
theorem run_exact_iff_sharedParam :
    Exact (.releaseGraphParams "g") (run 1 true sharedParam)
        (run 1 true (sharedParam ++ [.releaseGraphParams "g"])) ∧
      (run 1 true sharedParam).LastUser "g" 2 ∧ ¬(run 1 true sharedParam).LastUser "g" 1 := by
  refine ⟨(run_exact_iff (sharedParam_ok.append (.releaseGraphParams "g") trivial) rfl).mpr ?_,
    by decide, by decide⟩
  intro g hg id hlast
  obtain rfl := StorageOp.releaseGraphParams.inj hg
  have hids : (run 1 true sharedParam).usedIds "g" = [1, 2] := by decide
  have hused := hlast.1
  rw [UsedBy, hids] at hused
  obtain rfl : id = 2 := by
    simp only [List.mem_cons, List.not_mem_nil, or_false] at hused
    refine hused.resolve_left ?_
    rintro rfl
    exact absurd hlast (by decide)
  refine ⟨by decide, by decide, fun g => rfl, fun gl hgl => ?_⟩
  by_cases htwo : gl = 2
  · rw [htwo]
    rfl
  · have hentry : (run 1 true sharedParam).id_global_to_local gl =
        Function.update (fun _ => none) 1 (some 1) gl := Function.update_of_ne htwo _ _
    rw [hentry] at hgl
    by_cases hone : gl = 1
    · rw [hone, Function.update_self] at hgl
      exact absurd hgl (by decide)
    · rw [Function.update_of_ne hone] at hgl
      exact nomatch hgl

/-- A parameter of one graph on rank 0, up to the release of the graph. -/
def oneParam : List (StorageOp Unit) :=
  [.registerParam 1 1 () false false,
    .deploy "g" ⟨[("w", 1)], by decide⟩ [("sg", fun _ => some {0})] false]

/-- The ranks of the graph still mention the parameter. -/
theorem not_run_exact : ¬∀ (rank : ℕ) (sync_on_init : Bool) (before : List (StorageOp Unit))
    (op : StorageOp Unit),
      Exact op (run rank sync_on_init before) (run rank sync_on_init (before ++ [op])) := by
  intro h
  have hlast : (run 0 true oneParam).LastUser "g" 1 := by decide
  have htrace := (h 0 true oneParam (.releaseGraphParams "g")).removed "g" rfl 1 hlast
  have hranks :
      ((run 0 true (oneParam ++ [.releaseGraphParams "g"])).my_param_ranks "g" 1).isSome := by
    decide
  rw [htrace.my_param_ranks "g"] at hranks
  cases hranks

end Rannc.ParamStorage
