import Rannc.Comp.GradNorm
import Rannc.Lib.OptionFold

/-!
# What the reduction leaves of the gradients

The ranks of a parameter find its gradients at the same place of their lists. So the reduction of a
deployed graph is one on names, group by group.
-/
namespace Rannc.GradPlacement

variable {R : Type} {p : GradPlacement R} {grad : ℕ → String → List R} {rank : ℕ} {name : String}

theorem nameOf_param_id (hname : name ∈ p.names) :
    p.nameOf rank (p.param_id rank name) = some name := by
  unfold nameOf
  cases hfind : p.names.find? fun name' => p.param_id rank name' = p.param_id rank name with
  | none =>
    have hnot := List.find?_eq_none.mp hfind name hname
    simp at hnot
  | some name' =>
    have hmem := List.mem_of_find?_eq_some hfind
    have heq : p.param_id rank name' = p.param_id rank name := by
      simpa using List.find?_some hfind
    rw [p.param_id_inj rank name' hmem name hname heq]

theorem eq_of_nameOf {id : ℤ} (h : p.nameOf rank id = some name) :
    name ∈ p.names ∧ p.param_id rank name = id := by
  refine ⟨List.mem_of_find?_eq_some h, ?_⟩
  simpa using List.find?_some h

theorem storage_params (hname : name ∈ p.names) (hrank : rank ∈ p.ranks name) :
    (p.storage grad rank).params (p.param_id rank name) =
      some ⟨if p.has_grad name then some (grad rank name) else none⟩ := by
  dsimp only [storage]
  rw [nameOf_param_id hname, Option.bind_some, if_pos hrank]

theorem storage_usesMaster (id : ℤ) : ¬(p.storage grad rank).usesMaster id :=
  fun h => nomatch h.2.1

theorem setGrad_storage (hname : name ∈ p.names) (hrank : rank ∈ p.ranks name)
    (hgrad : p.has_grad name = true) {g : ℕ → String → List R} {new : List R} :
    (p.storage g rank).setGrad (p.param_id rank name) new =
      p.storage (Function.update g rank (Function.update (g rank) name new)) rank := by
  have hparams : Function.update (p.storage g rank).params (p.param_id rank name)
      (some ⟨some new⟩) =
        (p.storage (Function.update g rank (Function.update (g rank) name new)) rank).params := by
    funext id
    by_cases hid : id = p.param_id rank name
    · rw [hid, Function.update_self, storage_params hname hrank, if_pos hgrad,
        Function.update_self, Function.update_self]
    · rw [Function.update_of_ne hid]
      dsimp only [storage]
      cases hof : p.nameOf rank id with
      | none => rfl
      | some name' =>
        have hne : name' ≠ name := by
          rintro rfl
          exact hid (eq_of_nameOf hof).2.symm
        rw [Option.bind_some, Option.bind_some, Function.update_self, Function.update_of_ne hne]
  unfold GradStorage.setGrad
  rw [if_neg (storage_usesMaster _), hparams]
  rfl

theorem storage_congr {g g' : ℕ → String → List R}
    (h : ∀ name ∈ p.names, rank ∈ p.ranks name → p.has_grad name = true →
      g rank name = g' rank name) :
    p.storage g rank = p.storage g' rank := by
  have hparams : (p.storage g rank).params = (p.storage g' rank).params := by
    funext id
    dsimp only [storage]
    cases hof : p.nameOf rank id with
    | none => rfl
    | some name =>
      rw [Option.bind_some, Option.bind_some]
      by_cases hrank : rank ∈ p.ranks name
      · by_cases hgrad : p.has_grad name = true
        · rw [h name (eq_of_nameOf hof).1 hrank hgrad]
        · rw [if_neg hgrad, if_neg hgrad]
      · rw [if_neg hrank, if_neg hrank]
  have hrest : ∀ params, { p.storage g rank with params := params } =
      { p.storage g' rank with params := params } := fun _ => rfl
  calc p.storage g rank
      = { p.storage g rank with params := (p.storage g' rank).params } := by rw [← hparams]
    _ = p.storage g' rank := hrest _

/-- Writing gradients of some parameters of a rank. -/
theorem setGrads_storage {l : List String} (hl : ∀ name ∈ l, name ∈ p.names ∧ rank ∈ p.ranks name ∧
      p.has_grad name = true) (g : ℕ → String → List R) (new : String → List R) :
    (p.storage g rank).setGrads (l.map fun name => (p.param_id rank name, new name)) =
      p.storage (Function.update g rank fun name => if name ∈ l then new name else g rank name)
        rank := by
  unfold GradStorage.setGrads
  rw [List.foldl_map]
  induction l generalizing g with
  | nil =>
    apply storage_congr
    intro name _ _ _
    simp
  | cons name l ih =>
    obtain ⟨hname, hrank, hgrad⟩ := hl name List.mem_cons_self
    rw [List.foldl_cons]
    dsimp only
    rw [setGrad_storage hname hrank hgrad,
      ih (fun name hmem => hl name (List.mem_cons_of_mem _ hmem))]
    apply storage_congr
    intro name' _ _ _
    rw [Function.update_self, Function.update_self, Function.update_self]
    by_cases hmem : name' ∈ l
    · rw [if_pos hmem, if_pos (List.mem_cons_of_mem _ hmem)]
    · rw [if_neg hmem]
      by_cases heq : name' = name
      · rw [heq, Function.update_self, if_pos List.mem_cons_self]
      · rw [Function.update_of_ne heq, if_neg (by simp [heq, hmem])]

theorem mem_group {ranks : Finset ℕ} :
    name ∈ p.group ranks ↔ name ∈ p.names ∧ p.ranks name = ranks := by
  unfold group sortedNames
  rw [List.mem_filter, List.mem_insertionSort, decide_eq_true_eq]

theorem mem_rankSets {ranks : Finset ℕ} :
    ranks ∈ p.rankSets ↔ (∃ name ∈ p.names, p.ranks name = ranks) ∧ ranks.Nonempty := by
  unfold rankSets
  rw [List.mem_dedup, List.mem_filter, List.mem_map, decide_eq_true_eq]

theorem find?_tag {ranks : Finset ℕ} (h : ranks ∈ p.rankSets) :
    (p.rankSets.find? fun ranks' => p.tag ranks' = p.tag ranks) = some ranks := by
  cases hfind : p.rankSets.find? fun ranks' => p.tag ranks' = p.tag ranks with
  | none =>
    have hnot := List.find?_eq_none.mp hfind ranks h
    simp at hnot
  | some ranks' =>
    have heq : p.tag ranks' = p.tag ranks := by simpa using List.find?_some hfind
    rw [p.tag_inj heq]

theorem lookup_tag {α : Type} {l : List (Finset ℕ)} {ranks : Finset ℕ} (h : ranks ∈ l)
    (f : Finset ℕ → α) : (l.map fun ranks => (p.tag ranks, f ranks)).lookup (p.tag ranks) =
      some (f ranks) := by
  induction l with
  | nil => exact absurd h List.not_mem_nil
  | cons ranks' l ih =>
    rw [List.map_cons, List.lookup_cons]
    by_cases heq : ranks = ranks'
    · rw [heq, beq_self_eq_true]
    · have hne : (p.tag ranks == p.tag ranks') = false := by
        rw [beq_eq_false_iff_ne]
        exact fun h => heq (p.tag_inj h)
      rw [hne]
      exact ih ((List.mem_cons.mp h).resolve_left heq)

/-- The names of a group that have gradients. -/
def live (p : GradPlacement R) (ranks : Finset ℕ) : List String :=
  (p.group ranks).filter fun name => p.has_grad name

theorem mem_live {ranks : Finset ℕ} :
    name ∈ p.live ranks ↔ name ∈ p.names ∧ p.ranks name = ranks ∧ p.has_grad name = true := by
  unfold live
  rw [List.mem_filter, mem_group, and_assoc]

theorem reduceOption_map {α : Type} (l : List α) (c : α → Bool) {β : Type} (f : α → β) :
    (l.map fun a => if c a then some (f a) else none).reduceOption = (l.filter c).map f := by
  induction l with
  | nil => rfl
  | cons a l ih =>
    rw [List.map_cons, List.filter_cons]
    cases c a with
    | true => exact congrArg (f a :: ·) ih
    | false => exact ih

/-- A rank of a group sends the gradients of the group, in the order of the names. -/
theorem gradsToReduce_storage {ranks : Finset ℕ} (hranks : ranks ∈ p.rankSets)
    (hrank : rank ∈ ranks) (g : ℕ → String → List R) :
    (p.storage g rank).gradsToReduce (p.tag ranks) =
      some ((p.live ranks).map fun name => (p.param_id rank name, g rank name)) := by
  have hids : (p.storage g rank).grouped_params.lookup (p.tag ranks) =
      some ((p.group ranks).map (p.param_id rank)) :=
    lookup_tag hranks fun ranks => (p.group ranks).map (p.param_id rank)
  have hgrads : (((p.group ranks).map (p.param_id rank)).mapM fun pid => do
        let param ← (p.storage g rank).reduceTensor pid
        guard ((p.storage g rank).zeroEnabled = true → param.grad.isSome = true)
        return param.grad.map fun grad => (pid, grad)) =
      some ((p.group ranks).map fun name =>
        if p.has_grad name then some (p.param_id rank name, g rank name) else none) := by
    rw [mapM_eq_some_iff, List.map_map, List.map_map]
    apply List.map_congr_left
    intro name hmem
    obtain ⟨hname, rfl⟩ := mem_group.mp hmem
    dsimp only [Function.comp_apply, GradStorage.reduceTensor]
    rw [if_neg (storage_usesMaster _), storage_params hname hrank]
    cases hgrad : p.has_grad name with
    | true => simp
    | false =>
      have hzero : (p.storage g rank).zeroEnabled = false := by
        cases hz : p.zero with
        | true => exact absurd (p.zero_has_grad hz name hname ⟨rank, hrank⟩) (by simp [hgrad])
        | false => simp [GradStorage.zeroEnabled, storage, hz]
      simp [hzero]
  calc (p.storage g rank).gradsToReduce (p.tag ranks)
      = ((((p.group ranks).map (p.param_id rank)).mapM fun pid => do
          let param ← (p.storage g rank).reduceTensor pid
          guard ((p.storage g rank).zeroEnabled = true → param.grad.isSome = true)
          return param.grad.map fun grad => (pid, grad)).bind fun grads =>
            some grads.reduceOption) := by
        unfold GradStorage.gradsToReduce
        rw [hids]
        rfl
    _ = some ((p.live ranks).map fun name => (p.param_id rank name, g rank name)) := by
        rw [hgrads, Option.bind_some, reduceOption_map]
        rfl

/-- The sets of ranks in the order of their sizes. -/
def sortedSets (p : GradPlacement R) : List (Finset ℕ) :=
  p.rankSets.insertionSort fun a b => a.card ≤ b.card

theorem sortCommTags_storage (g : ℕ → String → List R) :
    (p.storage g rank).sortCommTags = p.sortedSets.map p.tag := by
  unfold GradStorage.sortCommTags sortedSets
  dsimp only [storage]
  rw [List.map_map]
  symm
  apply List.map_insertionSort
  intro a ha b hb
  rw [find?_tag ha, find?_tag hb]
  rfl

/-- The segment of a parameter for which a rank is the root. -/
def segment (p : GradPlacement R) (rank : ℕ) (name : String) : ℕ × ℕ :=
  (doRegister (p.numel name) (p.ranks name)).getD (getLocalRank (p.ranks name) rank) (0, 0)

theorem getElem?_segment (hrank : rank ∈ p.ranks name) :
    (doRegister (p.numel name) (p.ranks name))[getLocalRank (p.ranks name) rank]? =
      some (p.segment rank name) := by
  have hlt : getLocalRank (p.ranks name) rank <
      (doRegister (p.numel name) (p.ranks name)).length := by
    rw [length_doRegister, ← length_sortRanks]
    exact List.idxOf_lt_length_of_mem ((mem_sortRanks _).mpr hrank)
  unfold segment
  rw [List.getD_eq_getElem?_getD, List.getElem?_eq_getElem hlt, Option.getD_some]

theorem place_storage {ranks : Finset ℕ} (g : ℕ → String → List R) {i : ℕ}
    (hi : (p.live ranks)[i]? = some name) :
    (((sortRanks ranks).map fun r =>
      (p.live ranks).map fun name => (p.param_id r name, g r name)).map
        fun buf => (buf[i]?.map Prod.snd).getD []) = (sortRanks ranks).map fun r => g r name := by
  rw [List.map_map]
  apply List.map_congr_left
  intro r _
  dsimp only [Function.comp_apply]
  rw [List.getElem?_map, hi]
  rfl

variable [Add R]

/-- The gradient after the reduction, of the whole parameter or of the segment of the rank. -/
def newGrad (p : GradPlacement R) (g : ℕ → String → List R) (rank : ℕ) (name : String) : List R :=
  let grads := (sortRanks (p.ranks name)).map fun r => g r name
  if p.zero then
    putSlice (g rank name) (p.segment rank name)
      (sumTensors (grads.map fun grad => slice grad (p.segment rank name)))
  else sumTensors grads

theorem reduced_storage (hname : name ∈ p.names) (hrank : rank ∈ p.ranks name)
    (g : ℕ → String → List R) :
    (p.storage g rank).reduced (p.ranks name) rank (p.param_id rank name) (g rank name)
      ((sortRanks (p.ranks name)).map fun r => g r name) = some (p.newGrad g rank name) := by
  unfold GradStorage.reduced newGrad
  dsimp only [storage]
  cases p.zero with
  | false => rfl
  | true =>
    simp only [if_true]
    rw [nameOf_param_id hname, Option.map_some]
    change ((doRegister (p.numel name) (p.ranks name))[getLocalRank (p.ranks name) rank]?).bind _
      = _
    rw [getElem?_segment hrank]
    rfl

theorem mapM_reduced {ranks : Finset ℕ} (hrank : rank ∈ ranks) (g : ℕ → String → List R) :
    ((((p.live ranks).map fun name => (p.param_id rank name, g rank name)).mapIdx
      fun i it => (i, it)).mapM fun x => do
        let grad ← (p.storage g rank).reduced ranks rank x.2.1 x.2.2
          (((sortRanks ranks).map fun r => (p.live ranks).map fun name =>
            (p.param_id r name, g r name)).map fun buf => (buf[x.1]?.map Prod.snd).getD [])
        return (x.2.1, grad)) =
      some ((p.live ranks).map fun name => (p.param_id rank name, p.newGrad g rank name)) := by
  rw [mapM_eq_some_iff]
  apply List.ext_getElem?
  intro i
  rw [List.getElem?_map, List.getElem?_mapIdx, List.getElem?_map, List.getElem?_map,
    List.getElem?_map]
  cases hi : (p.live ranks)[i]? with
  | none => rfl
  | some name =>
    obtain ⟨hname, rfl, -⟩ := mem_live.mp (List.mem_of_getElem? hi)
    simp only [Option.map_some]
    rw [place_storage g hi, reduced_storage hname hrank]
    rfl

/-- The gradients after the collective of one set of ranks. -/
def reduceSet (p : GradPlacement R) (g : ℕ → String → List R) (ranks : Finset ℕ) :
    ℕ → String → List R :=
  fun rank name => if rank ∈ ranks ∧ name ∈ p.live ranks then p.newGrad g rank name else g rank name

theorem lookup_map_self {α : Type} {l : List ℕ} (f : ℕ → α) (r : ℕ) :
    (l.map fun r => (r, f r)).lookup r = if r ∈ l then some (f r) else none := by
  induction l with
  | nil => rfl
  | cons r' l ih =>
    rw [List.map_cons, List.lookup_cons, ih]
    by_cases h : r = r'
    · rw [h, beq_self_eq_true, if_pos List.mem_cons_self]
    · rw [beq_eq_false_iff_ne.mpr h]
      simp only [List.mem_cons, h, false_or]

theorem reduceGroup_storage {ranks : Finset ℕ} (hranks : ranks ∈ p.rankSets) (hrank : rank ∈ ranks)
    (g : ℕ → String → List R) :
    (p.storage g rank).reduceGroup ranks rank (p.tag ranks)
      ((sortRanks ranks).map fun r =>
        (p.live ranks).map fun name => (p.param_id r name, g r name)) =
        some (p.storage (p.reduceSet g ranks) rank) := by
  have hnew : (p.storage g rank).setGrads ((p.live ranks).map fun name =>
      (p.param_id rank name, p.newGrad g rank name)) = p.storage (p.reduceSet g ranks) rank := by
    rw [setGrads_storage]
    · apply storage_congr
      intro name _ _ _
      unfold reduceSet
      rw [Function.update_self]
      simp only [hrank, true_and]
    · intro name hlive
      obtain ⟨hname, rfl, hgrad⟩ := mem_live.mp hlive
      exact ⟨hname, hrank, hgrad⟩
  unfold GradStorage.reduceGroup
  rw [gradsToReduce_storage hranks hrank, Option.bind_eq_bind, Option.bind_some, mapM_reduced hrank,
    Option.bind_some, hnew]
  rfl

theorem reduceTag_storage {ranks : Finset ℕ} (hranks : ranks ∈ p.rankSets)
    (g : ℕ → String → List R) :
    reduceTag (p.storage g) (p.tag ranks) = some (p.storage (p.reduceSet g ranks)) := by
  have hset : (p.storage g 0).tag_rank_set (p.tag ranks) = some ranks := find?_tag hranks
  have hbufs : ((sortRanks ranks).mapM fun r => (p.storage g r).gradsToReduce (p.tag ranks)) =
      some ((sortRanks ranks).map fun r => (p.live ranks).map fun name =>
        (p.param_id r name, g r name)) := by
    rw [mapM_eq_some_iff, List.map_map]
    apply List.map_congr_left
    intro r hr
    exact gradsToReduce_storage hranks ((mem_sortRanks _).mp hr) g
  have hstates : ((sortRanks ranks).mapM fun r => do
      let state ← (p.storage g r).reduceGroup ranks r (p.tag ranks)
        ((sortRanks ranks).map fun r => (p.live ranks).map fun name =>
          (p.param_id r name, g r name))
      return (r, state)) =
        some ((sortRanks ranks).map fun r => (r, p.storage (p.reduceSet g ranks) r)) := by
    rw [mapM_eq_some_iff, List.map_map]
    apply List.map_congr_left
    intro r hr
    rw [reduceGroup_storage hranks ((mem_sortRanks _).mp hr)]
    rfl
  unfold reduceTag
  simp only [Option.bind_eq_bind] at hstates ⊢
  rw [hset, Option.bind_some, hbufs, Option.bind_some, hstates, Option.bind_some]
  apply congrArg some
  funext r
  rw [lookup_map_self]
  by_cases hr : r ∈ ranks
  · rw [if_pos ((mem_sortRanks _).mpr hr), Option.getD_some]
  · rw [if_neg ((mem_sortRanks _).not.mpr hr), Option.getD_none]
    apply storage_congr
    intro name _ _ _
    exact (if_neg fun h => hr h.1).symm

/-- The gradients after all collectives. -/
def allReduced (p : GradPlacement R) (g : ℕ → String → List R) (rank : ℕ) (name : String) :
    List R :=
  if name ∈ p.live (p.ranks name) ∧ rank ∈ p.ranks name then p.newGrad g rank name else g rank name

theorem newGrad_congr {g g' : ℕ → String → List R} (h : ∀ r, g r name = g' r name) :
    p.newGrad g rank name = p.newGrad g' rank name := by
  unfold newGrad
  simp only [h]

theorem foldl_reduceSet {l : List (Finset ℕ)} (hl : l.Nodup) (g : ℕ → String → List R)
    (hrank : rank ∈ p.ranks name) (hlive : name ∈ p.live (p.ranks name)) :
    l.foldl p.reduceSet g rank name =
      if p.ranks name ∈ l then p.newGrad g rank name else g rank name := by
  have hother : ∀ (g : ℕ → String → List R) (ranks : Finset ℕ), ranks ≠ p.ranks name →
      ∀ r, p.reduceSet g ranks r name = g r name := by
    intro g ranks hne r
    apply if_neg
    intro h
    exact hne (mem_live.mp h.2).2.1.symm
  induction l generalizing g with
  | nil => rfl
  | cons ranks l ih =>
    obtain ⟨hnot, hl⟩ := List.nodup_cons.mp hl
    rw [List.foldl_cons, ih hl]
    by_cases heq : ranks = p.ranks name
    · rw [if_neg (heq ▸ hnot), if_pos (heq ▸ List.mem_cons_self)]
      exact if_pos ⟨heq ▸ hrank, heq ▸ hlive⟩
    · simp only [List.mem_cons, Ne.symm heq, false_or]
      rw [newGrad_congr (hother g ranks heq), hother g ranks heq]

theorem allReduceParamGrads_storage (g : ℕ → String → List R) :
    allReduceParamGrads (p.storage g) = some (p.storage (p.allReduced g)) := by
  have hfold : ∀ (l : List (Finset ℕ)) (g : ℕ → String → List R),
      (∀ ranks ∈ l, ranks ∈ p.rankSets) →
      (l.map p.tag).foldlM reduceTag (p.storage g) = some (p.storage (l.foldl p.reduceSet g)) := by
    intro l
    induction l with
    | nil => exact fun _ _ => rfl
    | cons ranks l ih =>
      intro g hl
      rw [List.map_cons, List.foldlM_cons, reduceTag_storage (hl ranks List.mem_cons_self)]
      exact ih _ fun ranks h => hl ranks (List.mem_cons_of_mem _ h)
  have hperm : p.sortedSets.Perm p.rankSets := List.perm_insertionSort _ _
  unfold allReduceParamGrads
  rw [sortCommTags_storage, hfold _ _ fun ranks h => hperm.subset h]
  congr 1
  funext r
  apply storage_congr
  intro name hname hrank hgrad
  have hlive : name ∈ p.live (p.ranks name) := mem_live.mpr ⟨hname, rfl, hgrad⟩
  have hset : p.ranks name ∈ p.sortedSets :=
    hperm.mem_iff.mpr (mem_rankSets.mpr ⟨⟨name, hname, rfl⟩, r, hrank⟩)
  rw [foldl_reduceSet (hperm.nodup_iff.mpr (List.nodup_dedup _)) g hrank hlive, if_pos hset]
  exact (if_pos ⟨hlive, hrank⟩).symm

end Rannc.GradPlacement
