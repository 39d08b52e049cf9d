import Rannc.Opt.StateDict
import Rannc.Lib.OptionFold

/-!
# Local and global order of parameters

The position of a parameter in the optimizer of a rank belongs to its position among all
parameters.
-/
namespace Rannc

variable {P S O : Type}

/-- The parameters that are used, with their positions. -/
def usedPositions (used : P → Bool) (start : ℕ) (params : List P) : List (P × ℕ) :=
  (params.zipIdx start).filter fun e => used e.1

theorem usedPositions_append (used : P → Bool) (start : ℕ) (l l' : List P) :
    usedPositions used start (l ++ l') =
      usedPositions used start l ++ usedPositions used (start + l.length) l' := by
  unfold usedPositions
  rw [List.zipIdx_append, List.filter_append]

theorem usedPositions_cons (used : P → Bool) (start : ℕ) (p : P) (l : List P) :
    usedPositions used start (p :: l) =
      (if used p then [(p, start)] else []) ++ usedPositions used (start + 1) l := by
  unfold usedPositions
  rw [List.zipIdx_cons, List.filter_cons]
  split_ifs <;> rfl

theorem map_fst_usedPositions (used : P → Bool) (start : ℕ) (l : List P) :
    (usedPositions used start l).map Prod.fst = l.filter used := by
  have h := List.filter_map (f := (Prod.fst : P × ℕ → P)) (p := used) (l := l.zipIdx start)
  rw [List.zipIdx_map_fst] at h
  exact h.symm

theorem nodup_usedPositions (used : P → Bool) (start : ℕ) (l : List P) :
    ((usedPositions used start l).map Prod.snd).Nodup := by
  have hall : ((l.zipIdx start).map Prod.snd).Nodup := by
    rw [List.zipIdx_map_snd]
    exact List.nodup_range'
  exact hall.sublist (List.filter_sublist.map Prod.snd)

theorem mem_usedPositions {used : P → Bool} {l : List P} {p : P} {i : ℕ} :
    (p, i) ∈ usedPositions used 0 l ↔ l[i]? = some p ∧ used p = true := by
  unfold usedPositions
  rw [List.mem_filter, List.mem_zipIdx_iff_getElem?]

/-- The maps of a rank belong together. -/
structure ParamOrder.Consistent (o : ParamOrder) : Prop where
  local_order : o.local_order = o.used_param_global_order.length
  order_local_to_global : ∀ i, o.order_local_to_global.get i = o.used_param_global_order[i]?

namespace ParamOrder

variable (use : RankUse P)

theorem Consistent.push {o : ParamOrder} (ho : o.Consistent) (p : P) :
    (o.push use p).Consistent := by
  refine ⟨?_, fun i => ?_⟩
  · unfold ParamOrder.push
    dsimp only
    rw [ho.local_order, List.length_append, List.length_singleton]
  · unfold ParamOrder.push
    dsimp only
    rw [Dict.get_set, ho.order_local_to_global, ho.local_order]
    split_ifs with hi
    · rw [hi, List.getElem?_append_right le_rfl, Nat.sub_self]
      rfl
    · by_cases hlt : i < o.used_param_global_order.length
      · rw [List.getElem?_append_left hlt]
      · have hlength : (o.used_param_global_order ++ [o.global_order]).length ≤ i := by
          rw [List.length_append, List.length_singleton]
          omega
        rw [List.getElem?_eq_none (not_lt.mp hlt), List.getElem?_eq_none hlength]

theorem foldl_add {o : ParamOrder} (ho : o.Consistent) (params l : List P) :
    ((l.foldl (add use) (o, params)).1.Consistent ∧
      (l.foldl (add use) (o, params)).1.used_param_global_order = o.used_param_global_order ++
        (usedPositions use.used_param_ids o.global_order l).map Prod.snd ∧
      (l.foldl (add use) (o, params)).1.global_order = o.global_order + l.length) ∧
    (l.foldl (add use) (o, params)).2 = params ++ l.filter use.used_param_ids := by
  induction l generalizing o params with
  | nil => exact ⟨⟨ho, by simp [usedPositions], rfl⟩, by simp⟩
  | cons p l ih =>
    rw [List.foldl_cons, usedPositions_cons, List.length_cons, Nat.add_comm l.length 1,
      ← Nat.add_assoc]
    by_cases hp : use.used_param_ids p
    · have hadd : add use (o, params) p = (o.push use p, params ++ [p]) := if_pos hp
      obtain ⟨⟨hcons, hused, hglobal⟩, hparams⟩ := ih (ho.push use p) (params ++ [p])
      rw [hadd, if_pos hp, List.map_append, ← List.append_assoc, List.filter_cons_of_pos hp]
      refine ⟨⟨hcons, hused, hglobal⟩, ?_⟩
      rw [hparams, List.append_assoc]
      rfl
    · have hadd : add use (o, params) p =
          ({ o with global_order := o.global_order + 1 }, params) := if_neg hp
      have hskip : ParamOrder.Consistent { o with global_order := o.global_order + 1 } :=
        ⟨ho.local_order, ho.order_local_to_global⟩
      rw [hadd, if_neg hp, List.nil_append, List.filter_cons_of_neg hp]
      exact ih hskip params

theorem foldl_addGroup {o : ParamOrder} (ho : o.Consistent)
    (new_groups groups : List (ParamGroup P O)) :
    ((groups.foldl (addGroup use) (o, new_groups)).1.Consistent ∧
      (groups.foldl (addGroup use) (o, new_groups)).1.used_param_global_order =
        o.used_param_global_order ++
          (usedPositions use.used_param_ids o.global_order (paramsOf groups)).map Prod.snd) ∧
    (groups.foldl (addGroup use) (o, new_groups)).2 = new_groups ++
      groups.map fun g => { g with params := g.params.filter use.used_param_ids } := by
  induction groups generalizing o new_groups with
  | nil => exact ⟨⟨ho, by simp [usedPositions, paramsOf]⟩, by simp⟩
  | cons g groups ih =>
    obtain ⟨⟨hcons, hused, hglobal⟩, hparams⟩ := foldl_add use ho [] g.params
    rw [List.foldl_cons]
    have hadd : addGroup use (o, new_groups) g = ((g.params.foldl (add use) (o, [])).1,
        new_groups ++ [{ g with params := g.params.filter use.used_param_ids }]) := by
      unfold addGroup
      dsimp only
      rw [hparams, List.nil_append]
    rw [hadd]
    obtain ⟨⟨hcons', hused'⟩, hgroups⟩ :=
      ih hcons (new_groups ++ [{ g with params := g.params.filter use.used_param_ids }])
    refine ⟨⟨hcons', ?_⟩, ?_⟩
    · have hflat : paramsOf (g :: groups) = g.params ++ paramsOf groups := List.flatMap_cons
      rw [hused', hused, hglobal, hflat, usedPositions_append, List.map_append, List.append_assoc]
    · rw [hgroups, List.append_assoc]
      rfl

end ParamOrder

section Order

variable (use : RankUse P) (param_groups : List (ParamGroup P O))

theorem removeUnusedParams_groups : (removeUnusedParams use param_groups).2 =
    param_groups.map fun g => { g with params := g.params.filter use.used_param_ids } :=
  (ParamOrder.foldl_addGroup use ⟨rfl, fun _ => rfl⟩ [] param_groups).2

theorem removeUnusedParams_consistent : (removeUnusedParams use param_groups).1.Consistent :=
  (ParamOrder.foldl_addGroup use ⟨rfl, fun _ => rfl⟩ [] param_groups).1.1

theorem removeUnusedParams_order :
    (removeUnusedParams use param_groups).1.used_param_global_order =
      (usedPositions use.used_param_ids 0 (paramsOf param_groups)).map Prod.snd := by
  have h := (ParamOrder.foldl_addGroup use (o := ⟨Dict.empty, [], 0, 0, Dict.empty⟩)
    ⟨rfl, fun _ => rfl⟩ [] param_groups).1.2
  rwa [List.nil_append] at h

end Order

theorem paramsOf_numberGroups (start : ℕ) (groups : List (ParamGroup P O)) :
    paramsOf (numberGroups start groups) = List.range' start (paramsOf groups).length := by
  induction groups generalizing start with
  | nil => rfl
  | cons g groups ih =>
    have hflat : paramsOf (numberGroups start (g :: groups)) =
        List.range' start g.params.length ++
          paramsOf (numberGroups (start + g.params.length) groups) := List.flatMap_cons
    have hflat' : paramsOf (g :: groups) = g.params ++ paramsOf groups := List.flatMap_cons
    rw [hflat, ih, hflat', List.length_append, List.range'_append_1]

theorem length_numberGroups (start : ℕ) (groups : List (ParamGroup P O)) :
    (numberGroups start groups).length = groups.length := by
  induction groups generalizing start with
  | nil => rfl
  | cons g groups ih => exact congrArg (· + 1) (ih _)

theorem options_numberGroups (start : ℕ) (groups : List (ParamGroup P O)) :
    (numberGroups start groups).map ParamGroup.options = groups.map ParamGroup.options := by
  induction groups generalizing start with
  | nil => rfl
  | cons g groups ih => exact congrArg (g.options :: ·) (ih _)

/-- Of the positions in each group those are left that are used. -/
theorem filter_numberGroups (used : P → Bool) (pids : List ℕ) (start : ℕ)
    (groups : List (ParamGroup P O))
    (hpids : ∀ e ∈ (paramsOf groups).zipIdx start, e.2 ∈ pids ↔ used e.1 = true) :
    (((numberGroups start groups).map ParamGroup.params).map (List.filter (· ∈ pids))).map
        List.length = groups.map (fun g => (g.params.filter used).length) ∧
    (((numberGroups start groups).map ParamGroup.params).map
        (List.filter (· ∈ pids))).flatten =
      (usedPositions used start (paramsOf groups)).map Prod.snd := by
  induction groups generalizing start with
  | nil => exact ⟨rfl, rfl⟩
  | cons g groups ih =>
    have hflat : paramsOf (g :: groups) = g.params ++ paramsOf groups := List.flatMap_cons
    rw [hflat, List.zipIdx_append] at hpids
    obtain ⟨hlengths, hflatten⟩ := ih (start + g.params.length)
      fun e he => hpids e (List.mem_append_right _ he)
    have hgroup : (List.range' start g.params.length).filter (· ∈ pids) =
        (usedPositions used start g.params).map Prod.snd := by
      rw [← List.zipIdx_map_snd start g.params, List.filter_map]
      unfold usedPositions
      congr 1
      apply List.filter_congr
      intro e he
      rw [Bool.eq_iff_iff, ← hpids e (List.mem_append_left _ he)]
      simp
    unfold numberGroups
    simp only [List.map_cons, List.flatten_cons]
    rw [hgroup, hlengths, hflatten, hflat, usedPositions_append, List.map_append, List.length_map]
    refine ⟨?_, rfl⟩
    rw [← map_fst_usedPositions used start g.params, List.length_map]

end Rannc
