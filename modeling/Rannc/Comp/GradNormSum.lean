import Rannc.Comp.GradReduction
import Mathlib.Analysis.Real.Sqrt

/-!
# What the norm counts

Without ZeRO the ranks of a parameter send the same norm and it counts once. With ZeRO each of them
sends the norm of a gradient that is reduced in its own segment only, and all of it counts.
-/
namespace Rannc.GradPlacement

variable {R : Type} {p : GradPlacement R} {rank : ℕ} {name : String}

theorem storage_global (g : ℕ → String → List R) (hname : name ∈ p.names) :
    (p.storage g rank).id_local_to_global (p.param_id rank name) = some (p.param_id 0 name) := by
  dsimp only [storage]
  rw [nameOf_param_id hname]
  rfl

theorem getParamIDs_storage (g : ℕ → String → List R) :
    (p.storage g rank).getParamIDs p.graph_id false =
      (p.names.filter fun name => rank ∈ p.ranks name).map fun name =>
        (name, p.param_id rank name) := by
  unfold ParamStorage.getParamIDs
  dsimp only [storage]
  rw [List.filter_eq_self.mpr, List.map_map]
  · rfl
  · intro u hu
    obtain ⟨name, _, rfl⟩ := List.mem_map.mp hu
    simp

section Norms

variable [Add R] [Mul R] [Zero R] {sqrt : R → R}

/-- The norm that a rank sends of a parameter. -/
def sent (p : GradPlacement R) (sqrt : R → R) (g : ℕ → String → List R) (rank : ℕ)
    (name : String) : Option R :=
  if rank ∈ p.ranks name ∧ p.has_grad name = true then some (sqrt (normSq (g rank name))) else none

theorem addNorm_storage (g : ℕ → String → List R) {use_amp_master : Bool} (hname : name ∈ p.names)
    (hrank : rank ∈ p.ranks name) (norms : ℤ → Option R) :
    (p.storage g rank).addNorm sqrt use_amp_master norms (name, p.param_id rank name) =
      some (if p.has_grad name then
          Function.update norms (p.param_id 0 name) (some (sqrt (normSq (g rank name))))
        else norms) := by
  have hten : (p.storage g rank).normTensor use_amp_master (p.param_id rank name) =
      some ⟨if p.has_grad name then some (g rank name) else none⟩ := by
    unfold GradStorage.normTensor
    rw [if_neg (fun h => nomatch h.2), storage_params hname hrank]
  unfold GradStorage.addNorm
  rw [hten]
  cases p.has_grad name with
  | false => rfl
  | true =>
    simp only [if_true, storage_global g hname]
    rfl

variable (sqrt) in
theorem foldlM_addNorm_storage (g : ℕ → String → List R) (use_amp_master : Bool) {l : List String}
    (hl : ∀ name ∈ l, name ∈ p.names ∧ rank ∈ p.ranks name) (norms : ℤ → Option R) :
    ∃ norms', (l.map fun name => (name, p.param_id rank name)).foldlM
        ((p.storage g rank).addNorm sqrt use_amp_master) norms = some norms' ∧
      ∀ name ∈ p.names, norms' (p.param_id 0 name) =
        if name ∈ l ∧ p.has_grad name = true then some (sqrt (normSq (g rank name)))
        else norms (p.param_id 0 name) := by
  induction l generalizing norms with
  | nil => exact ⟨norms, rfl, fun name _ => by simp⟩
  | cons name l ih =>
    obtain ⟨hname, hrank⟩ := hl name List.mem_cons_self
    rw [List.map_cons, List.foldlM_cons, addNorm_storage g hname hrank]
    obtain ⟨norms', heq, hnorms⟩ := ih (fun name hmem => hl name (List.mem_cons_of_mem _ hmem))
      (if p.has_grad name then
          Function.update norms (p.param_id 0 name) (some (sqrt (normSq (g rank name))))
        else norms)
    refine ⟨norms', heq, ?_⟩
    intro name' hname'
    rw [hnorms name' hname']
    by_cases hsame : name' = name
    · rw [hsame]
      cases p.has_grad name with
      | false => simp
      | true => simp
    · have hid : p.param_id 0 name' ≠ p.param_id 0 name :=
        fun h => hsame (p.param_id_inj 0 name' hname' name hname h)
      have hrest : (if p.has_grad name then
            Function.update norms (p.param_id 0 name) (some (sqrt (normSq (g rank name))))
          else norms) (p.param_id 0 name') = norms (p.param_id 0 name') := by
        split_ifs
        · exact Function.update_of_ne hid _ _
        · rfl
      rw [hrest]
      simp only [List.mem_cons, hsame, false_or]

theorem norms_storage (sqrt : R → R) (g : ℕ → String → List R) (rank : ℕ) (use_amp_master : Bool) :
    ∃ norms, (p.storage g rank).norms sqrt p.graph_id use_amp_master = some norms ∧
      ∀ name ∈ p.names, norms (p.param_id 0 name) = p.sent sqrt g rank name := by
  obtain ⟨norms, heq, hnorms⟩ := foldlM_addNorm_storage sqrt g use_amp_master
    (l := p.names.filter fun name => rank ∈ p.ranks name)
    (fun name hmem => by simpa using hmem) fun _ => none
  refine ⟨norms, ?_, ?_⟩
  · unfold GradStorage.norms
    rw [getParamIDs_storage]
    exact heq
  · intro name hname
    rw [hnorms name hname]
    unfold sent
    simp [hname]

end Norms

theorem putName_of_new {param_ids : List (String × ℤ)} {it : String × ℤ}
    (h : it.1 ∉ param_ids.map Prod.fst) : GradStorage.putName param_ids it = it :: param_ids := by
  unfold GradStorage.putName
  congr 1
  rw [List.filter_eq_self]
  intro it' hit'
  apply decide_eq_true
  intro heq
  exact h (heq ▸ List.mem_map_of_mem hit')

theorem foldl_putName (id : String → ℤ) {l : List String} (hl : l.Nodup)
    {param_ids : List (String × ℤ)} (hnew : ∀ name ∈ l, name ∉ param_ids.map Prod.fst) :
    (l.foldl (fun param_ids name => GradStorage.putName param_ids (name, id name)) param_ids).Perm
      ((l.map fun name => (name, id name)) ++ param_ids) := by
  induction l generalizing param_ids with
  | nil => exact List.Perm.refl _
  | cons name l ih =>
    obtain ⟨hname, hl⟩ := List.nodup_cons.mp hl
    rw [List.foldl_cons, putName_of_new (hnew name List.mem_cons_self)]
    apply (ih hl _).trans List.perm_middle
    intro name' hname'
    rw [List.map_cons, List.mem_cons, not_or]
    refine ⟨?_, hnew name' (List.mem_cons_of_mem _ hname')⟩
    rintro rfl
    exact hname hname'

/-- Every rank knows the global ids of all parameters. -/
theorem allParamIDs_storage (g : ℕ → String → List R) (rank : ℕ) :
    ∃ param_ids, (p.storage g rank).allParamIDs p.graph_id = some param_ids ∧
      param_ids.Perm (p.names.map fun name => (name, p.param_id 0 name)) := by
  have hon : ∀ (l : List String) (param_ids : List (String × ℤ)), (∀ name ∈ l, name ∈ p.names) →
      (l.map fun name => (name, p.param_id rank name)).foldlM (p.storage g rank).addGlobal
        param_ids = some (l.foldl (fun param_ids name =>
          GradStorage.putName param_ids (name, p.param_id 0 name)) param_ids) := by
    intro l
    induction l with
    | nil => exact fun _ _ => rfl
    | cons name l ih =>
      intro param_ids hl
      rw [List.map_cons, List.foldlM_cons]
      unfold GradStorage.addGlobal
      rw [storage_global g (hl name List.mem_cons_self)]
      exact ih _ fun name h => hl name (List.mem_cons_of_mem _ h)
  have hunused : ((p.storage g rank).unused_params.filter fun u => u.graph_id = p.graph_id) =
      (p.names.filter fun name => rank ∉ p.ranks name).map fun name =>
        ⟨p.graph_id, name, p.param_id 0 name⟩ := by
    dsimp only [storage]
    rw [List.filter_eq_self]
    intro u hu
    obtain ⟨name, _, rfl⟩ := List.mem_map.mp hu
    simp
  have hperm : (p.names.filter (fun name => rank ∈ p.ranks name) ++
      p.names.filter fun name => rank ∉ p.ranks name).Perm p.names := by
    simpa using List.filter_append_perm (fun name => decide (rank ∈ p.ranks name)) p.names
  have hnodup := hperm.nodup_iff.mpr p.nodup
  refine ⟨(p.names.filter (fun name => rank ∈ p.ranks name) ++
      p.names.filter fun name => rank ∉ p.ranks name).foldl
    (fun param_ids name => GradStorage.putName param_ids (name, p.param_id 0 name)) [], ?_, ?_⟩
  · unfold GradStorage.allParamIDs
    rw [getParamIDs_storage, hon _ _ fun name h => List.mem_of_mem_filter h, hunused,
      Option.bind_eq_bind, Option.bind_some, List.foldl_map, List.foldl_append]
    rfl
  · apply (foldl_putName (p.param_id 0) hnodup fun _ _ => List.not_mem_nil).trans
    rw [List.append_nil]
    exact hperm.map _

theorem foldl_orElse [DecidableEq R] {l : List ℕ} {f : ℕ → Option R} {x : R}
    (h : ∀ r ∈ l, f r = none ∨ f r = some x) (norm : Option R)
    (hnorm : norm = none ∨ norm = some x) :
    l.foldl (fun norm r => f r <|> norm) norm =
      if norm = some x ∨ ∃ r ∈ l, f r = some x then some x else none := by
  induction l generalizing norm with
  | nil => cases hnorm with
    | inl h => simp [h]
    | inr h => simp [h]
  | cons r l ih =>
    rw [List.foldl_cons]
    cases h r List.mem_cons_self with
    | inl hr =>
      have hstep : (f r <|> norm) = norm := by
        rw [hr]
        rfl
      rw [hstep, ih (fun r hr => h r (List.mem_cons_of_mem _ hr)) norm hnorm]
      simp [hr]
    | inr hr =>
      have hstep : (f r <|> norm) = some x := by
        rw [hr]
        rfl
      rw [hstep, ih (fun r hr => h r (List.mem_cons_of_mem _ hr)) _ (Or.inr rfl)]
      simp [hr]

theorem map_segment (name : String) :
    (sortRanks (p.ranks name)).map (fun r => p.segment r name) =
      doRegister (p.numel name) (p.ranks name) := by
  apply List.ext_getElem?
  intro i
  rw [List.getElem?_map]
  cases hi : (sortRanks (p.ranks name))[i]? with
  | none =>
    have hle : (sortRanks (p.ranks name)).length ≤ i := List.getElem?_eq_none_iff.mp hi
    rw [Option.map_none, eq_comm, List.getElem?_eq_none_iff, length_doRegister]
    rwa [length_sortRanks] at hle
  | some r =>
    have hr : r ∈ p.ranks name := (mem_sortRanks _).mp (List.mem_of_getElem? hi)
    have hidx : getLocalRank (p.ranks name) r = i := by
      obtain ⟨hlt, heq⟩ := List.getElem?_eq_some_iff.mp hi
      unfold getLocalRank
      rw [← heq]
      exact (nodup_sortRanks _).idxOf_getElem i hlt
    rw [Option.map_some, ← getElem?_segment hr, hidx]

section Squares

variable [CommRing R]

theorem normSq_append (l l' : List R) : normSq (l ++ l') = normSq l + normSq l' := by
  unfold normSq
  rw [List.map_append, List.sum_append]

/-- What a list has outside a range. -/
def outside (l : List R) (range : ℕ × ℕ) : List R := l.take range.1 ++ l.drop (range.1 + range.2)

theorem normSq_putSlice (l part : List R) (range : ℕ × ℕ) :
    normSq (putSlice l range part) = normSq part + normSq (outside l range) := by
  unfold putSlice outside
  rw [normSq_append, normSq_append, normSq_append]
  ring

theorem normSq_flatMap {α : Type} (l : List α) (f : α → List R) :
    normSq (l.flatMap f) = (l.map fun a => normSq (f a)).sum := by
  induction l with
  | nil => rfl
  | cons a l ih => rw [List.flatMap_cons, normSq_append, ih, List.map_cons, List.sum_cons]

theorem sum_normSq_slices {ranges : List (ℕ × ℕ)} {l : List R} (h : Cuts 0 ranges l.length) :
    (ranges.map fun range => normSq (slice l range)).sum = normSq l := by
  rw [← normSq_flatMap, h.flatMap_slice rfl, List.drop_zero]

theorem slice_sumTensors (grads : List (List R)) (range : ℕ × ℕ) :
    sumTensors (grads.map fun g => slice g range) = slice (sumTensors grads) range := by
  cases grads with
  | nil =>
    unfold sumTensors slice
    simp
  | cons g grads =>
    have hfold : ∀ (grads : List (List R)) (g : List R),
        (grads.map fun g => slice g range).foldl addTensors (slice g range) =
          slice (grads.foldl addTensors g) range := by
      intro grads
      induction grads with
      | nil => exact fun _ => rfl
      | cons g' grads ih =>
        intro g
        rw [List.map_cons, List.foldl_cons, List.foldl_cons, ← ih]
        unfold addTensors
        rw [slice_zipWith]
    exact hfold grads g

theorem length_sumTensors {grads : List (List R)} {n : ℕ} (hne : grads ≠ [])
    (h : ∀ g ∈ grads, g.length = n) : (sumTensors grads).length = n := by
  cases grads with
  | nil => exact absurd rfl hne
  | cons g grads =>
    have hfold : ∀ (grads : List (List R)) (g : List R), g.length = n →
        (∀ g ∈ grads, g.length = n) → (grads.foldl addTensors g).length = n := by
      intro grads
      induction grads with
      | nil => exact fun _ hg _ => hg
      | cons g' grads ih =>
        intro g hg hgrads
        apply ih
        · unfold addTensors
          rw [List.length_zipWith, hg, hgrads g' List.mem_cons_self, Nat.min_self]
        · exact fun g h => hgrads g (List.mem_cons_of_mem _ h)
    exact hfold grads g (h g List.mem_cons_self) fun g hg => h g (List.mem_cons_of_mem _ hg)

/-- The full gradient of a parameter after a reduction. -/
def fullGrad (p : GradPlacement R) (name : String) : List R :=
  sumTensors ((sortRanks (p.ranks name)).map fun r => p.grad r name)

theorem length_fullGrad (hranks : (p.ranks name).Nonempty) :
    (p.fullGrad name).length = p.numel name := by
  apply length_sumTensors
  · obtain ⟨r, hr⟩ := hranks
    exact List.ne_nil_of_mem (List.mem_map_of_mem ((mem_sortRanks _).mpr hr))
  · intro g hg
    obtain ⟨r, _, rfl⟩ := List.mem_map.mp hg
    exact p.length_grad r name

theorem sum_normSq_newGrad (hzero : p.zero = true) (hranks : (p.ranks name).Nonempty) :
    ((sortRanks (p.ranks name)).map fun r => normSq (p.newGrad p.grad r name)).sum =
      normSq (p.fullGrad name) +
        ((sortRanks (p.ranks name)).map fun r =>
          normSq (outside (p.grad r name) (p.segment r name))).sum := by
  have hone : ∀ r, normSq (p.newGrad p.grad r name) =
      normSq (slice (p.fullGrad name) (p.segment r name)) +
        normSq (outside (p.grad r name) (p.segment r name)) := by
    intro r
    unfold newGrad
    rw [if_pos hzero, slice_sumTensors, normSq_putSlice]
    rfl
  have hcuts : Cuts 0 (doRegister (p.numel name) (p.ranks name)) (p.fullGrad name).length := by
    rw [length_fullGrad hranks]
    exact doRegister_cuts hranks _
  simp only [hone]
  rw [List.sum_map_add, ← sum_normSq_slices hcuts, ← map_segment, List.map_map]
  rfl

theorem normSqSum_sorted {param_ids : List (String × ℤ)}
    (hids : param_ids.Perm (p.names.map fun name => (name, p.param_id 0 name)))
    (norms : ℤ → Option R) :
    normSqSum (ParamStorage.getSortedParamIDs param_ids) norms =
      (p.names.map fun name => square (norms (p.param_id 0 name))).sum := by
  have hperm : (ParamStorage.getSortedParamIDs param_ids).Perm (p.names.map (p.param_id 0)) := by
    unfold ParamStorage.getSortedParamIDs
    apply ((List.perm_insertionSort _ _).map _).trans
    apply (hids.map Prod.snd).trans
    rw [List.map_map]
    exact List.Perm.refl _
  unfold normSqSum
  rw [(hperm.map fun id => square (norms id)).sum_eq, List.map_map]
  rfl

/-- What is summed: every rank's squares with ZeRO, and else those that are left of what all ranks
sent under one index. -/
def counted (p : GradPlacement R) (sqrt : R → R) (g : ℕ → String → List R) : R :=
  if p.zero then
    ((List.range p.world_size).map fun r =>
      (p.names.map fun name => square (p.sent sqrt g r name)).sum).sum
  else
    (p.names.map fun name => square ((List.range p.world_size).foldl
      (fun norm r => p.sent sqrt g r name <|> norm) none)).sum

theorem calcGradGlobalL2Norm_storage (sqrt : R → R) (g : ℕ → String → List R) (rank : ℕ)
    (use_amp_master : Bool) :
    calcGradGlobalL2Norm sqrt p.world_size (p.storage g) rank p.graph_id use_amp_master =
      some (sqrt (p.counted sqrt g)) := by
  obtain ⟨param_ids, hall, hids⟩ := allParamIDs_storage (p := p) g rank
  choose norms hnorms hsent using fun r => norms_storage (p := p) sqrt g r use_amp_master
  have hgathered : ((List.range p.world_size).mapM fun r =>
      (p.storage g r).norms sqrt p.graph_id use_amp_master) =
        some ((List.range p.world_size).map norms) := by
    rw [mapM_eq_some_iff, List.map_map]
    exact List.map_congr_left fun r _ => hnorms r
  have hzero : (p.storage g rank).zeroEnabled = p.zero := by
    unfold GradStorage.zeroEnabled
    dsimp only [storage]
    cases p.zero <;> rfl
  have hsum : ((normsBuf p.zero ((List.range p.world_size).map norms)).map
      (normSqSum (ParamStorage.getSortedParamIDs param_ids))).sum = p.counted sqrt g := by
    unfold normsBuf counted
    split_ifs
    · rw [List.map_map]
      congr 1
      apply List.map_congr_left
      intro r _
      rw [Function.comp_apply, normSqSum_sorted hids]
      congr 1
      apply List.map_congr_left
      intro name hname
      rw [hsent r name hname]
    · rw [List.map_singleton, List.sum_singleton, normSqSum_sorted hids, List.foldl_map]
      congr 1
      apply List.map_congr_left
      intro name hname
      congr 1
      have hfold : ∀ (l : List ℕ) (buf : ℤ → Option R) (norm : Option R),
          buf (p.param_id 0 name) = norm →
          l.foldl (fun buf r global_id => norms r global_id <|> buf global_id) buf
            (p.param_id 0 name) = l.foldl (fun norm r => p.sent sqrt g r name <|> norm) norm := by
        intro l
        induction l with
        | nil => exact fun _ _ h => h
        | cons r l ih =>
          intro buf norm h
          apply ih
          dsimp only
          rw [hsent r name hname, h]
      exact hfold _ _ none rfl
  unfold calcGradGlobalL2Norm
  simp only [hall, hgathered, hzero, Option.bind_eq_bind, Option.bind_some]
  rw [hsum]
  rfl

/-- What the squares of the reduced gradients are summed up to, each parameter once. -/
def totalNormSq (p : GradPlacement R) : R :=
  (p.names.map fun name => if p.has_grad name then normSq (p.fullGrad name) else 0).sum

theorem sum_map_comm {α β : Type} (l : List α) (l' : List β) (f : α → β → R) :
    (l.map fun a => (l'.map fun b => f a b).sum).sum =
      (l'.map fun b => (l.map fun a => f a b).sum).sum := by
  induction l with
  | nil => simp
  | cons a l ih =>
    rw [List.map_cons, List.sum_cons, ih, ← List.sum_map_add]
    simp only [List.map_cons, List.sum_cons]

theorem sum_range_ite (hname : name ∈ p.names) (f : ℕ → R) :
    ((List.range p.world_size).map fun r => if r ∈ p.ranks name then f r else 0).sum =
      ((sortRanks (p.ranks name)).map f).sum := by
  rw [← sortRanks_range, sum_map_sortRanks, sum_map_sortRanks, Finset.sum_ite_mem]
  congr 1
  apply Finset.inter_eq_right.mpr
  intro r hr
  exact Finset.mem_range.mpr (p.ranks_lt name hname r hr)

theorem allReduced_eq (hname : name ∈ p.names) (hrank : rank ∈ p.ranks name)
    (hgrad : p.has_grad name = true) :
    p.allReduced p.grad rank name = p.newGrad p.grad rank name :=
  if_pos ⟨mem_live.mpr ⟨hname, rfl, hgrad⟩, hrank⟩

end Squares

section Placement

variable [CommRing R] [LinearOrder R] [IsStrictOrderedRing R] {sqrt : R → R}

theorem normSq_nonneg (l : List R) : 0 ≤ normSq l := by
  unfold normSq
  apply List.sum_nonneg
  intro x hx
  obtain ⟨y, _, rfl⟩ := List.mem_map.mp hx
  exact mul_self_nonneg y

theorem normSq_eq_zero_iff {l : List R} : normSq l = 0 ↔ ∀ x ∈ l, x = 0 := by
  induction l with
  | nil => simp [normSq]
  | cons x l ih =>
    have hcons : normSq (x :: l) = x * x + normSq l := by simp [normSq]
    have hx : 0 ≤ x * x := mul_self_nonneg x
    have hl := normSq_nonneg l
    rw [hcons, List.forall_mem_cons, ← ih]
    constructor
    · intro h
      have hx0 : x * x = 0 := le_antisymm (by linarith) hx
      exact ⟨mul_self_eq_zero.mp hx0, by linarith⟩
    · intro h
      rw [h.1, h.2]
      ring

theorem square_sent (hsqrt : ∀ x, 0 ≤ x → sqrt x * sqrt x = x) (g : ℕ → String → List R) (rank : ℕ)
    (name : String) : square (p.sent sqrt g rank name) =
      if rank ∈ p.ranks name ∧ p.has_grad name = true then normSq (g rank name) else 0 := by
  unfold sent
  split_ifs
  · exact hsqrt _ (normSq_nonneg _)
  · rfl

/-- With ZeRO the parts of the gradients that were not reduced count as well. -/
theorem counted_zero (hsqrt : ∀ x, 0 ≤ x → sqrt x * sqrt x = x) (hzero : p.zero = true) :
    p.counted sqrt (p.allReduced p.grad) = p.totalNormSq +
      (p.names.map fun name => if p.has_grad name then
        ((sortRanks (p.ranks name)).map fun r =>
          normSq (outside (p.grad r name) (p.segment r name))).sum else 0).sum := by
  unfold counted totalNormSq
  rw [if_pos hzero, sum_map_comm, ← List.sum_map_add]
  congr 1
  apply List.map_congr_left
  intro name hname
  simp only [square_sent hsqrt]
  by_cases hgrad : p.has_grad name = true
  · simp only [hgrad, and_true, if_true]
    rw [sum_range_ite hname]
    by_cases hranks : (p.ranks name).Nonempty
    · rw [← sum_normSq_newGrad hzero hranks]
      congr 1
      apply List.map_congr_left
      intro r hr
      rw [allReduced_eq hname ((mem_sortRanks _).mp hr) hgrad]
    · have hnil : sortRanks (p.ranks name) = [] := by
        rw [Finset.not_nonempty_iff_eq_empty.mp hranks]
        rfl
      unfold fullGrad
      rw [hnil]
      simp [sumTensors, normSq]
  · simp [hgrad]

theorem counted_of_not_zero (hsqrt : ∀ x, 0 ≤ x → sqrt x * sqrt x = x) (hzero : p.zero = false) :
    p.counted sqrt (p.allReduced p.grad) = p.totalNormSq := by
  unfold counted totalNormSq
  rw [if_neg (by simp [hzero])]
  congr 1
  apply List.map_congr_left
  intro name hname
  have hsent : ∀ r, p.sent sqrt (p.allReduced p.grad) r name =
      if r ∈ p.ranks name ∧ p.has_grad name = true then some (sqrt (normSq (p.fullGrad name)))
      else none := by
    intro r
    unfold sent
    split_ifs with h
    · rw [allReduced_eq hname h.1 h.2]
      unfold newGrad
      rw [if_neg (by simp [hzero])]
      rfl
    · rfl
  rw [foldl_orElse (x := sqrt (normSq (p.fullGrad name))) _ none (Or.inl rfl)]
  · by_cases hgrad : p.has_grad name = true
    · by_cases hranks : (p.ranks name).Nonempty
      · obtain ⟨r, hr⟩ := hranks
        rw [if_pos, if_pos hgrad]
        · exact hsqrt _ (normSq_nonneg _)
        · refine Or.inr ⟨r, List.mem_range.mpr (p.ranks_lt name hname r hr), ?_⟩
          rw [hsent, if_pos ⟨hr, hgrad⟩]
      · have hempty := Finset.not_nonempty_iff_eq_empty.mp hranks
        have hnil : sortRanks (p.ranks name) = [] := by
          rw [hempty]
          rfl
        rw [if_neg, if_pos hgrad]
        · unfold fullGrad
          rw [hnil]
          rfl
        · simp [hsent, hempty]
    · rw [if_neg, if_neg hgrad]
      · rfl
      · simp [hsent, hgrad]
  · intro r _
    rw [hsent]
    split_ifs
    · exact Or.inr rfl
    · exact Or.inl rfl

theorem sum_eq_zero_iff {α : Type} {l : List α} {f : α → R} (h : ∀ a ∈ l, 0 ≤ f a) :
    (l.map f).sum = 0 ↔ ∀ a ∈ l, f a = 0 := by
  induction l with
  | nil => simp
  | cons a l ih =>
    have ha := h a List.mem_cons_self
    have hl : 0 ≤ (l.map f).sum := by
      apply List.sum_nonneg
      intro x hx
      obtain ⟨b, hb, rfl⟩ := List.mem_map.mp hx
      exact h b (List.mem_cons_of_mem _ hb)
    rw [List.map_cons, List.sum_cons, List.forall_mem_cons,
      ← ih fun b hb => h b (List.mem_cons_of_mem _ hb)]
    constructor
    · intro hsum
      exact ⟨by linarith, by linarith⟩
    · intro hzero
      rw [hzero.1, hzero.2, add_zero]

theorem counted_eq_iff (hsqrt : ∀ x, 0 ≤ x → sqrt x * sqrt x = x) :
    p.counted sqrt (p.allReduced p.grad) = p.totalNormSq ↔
      (p.zero = true → ∀ name ∈ p.names, p.has_grad name = true → ∀ r ∈ p.ranks name,
        ∀ x ∈ outside (p.grad r name) (p.segment r name), x = 0) := by
  cases hzero : p.zero with
  | false => simp [counted_of_not_zero hsqrt hzero]
  | true =>
    have hranks : ∀ name, 0 ≤ ((sortRanks (p.ranks name)).map fun r =>
        normSq (outside (p.grad r name) (p.segment r name))).sum := by
      intro name
      apply List.sum_nonneg
      intro x hx
      obtain ⟨r, _, rfl⟩ := List.mem_map.mp hx
      exact normSq_nonneg _
    rw [counted_zero hsqrt hzero, add_eq_left, sum_eq_zero_iff]
    · simp only [true_imp_iff]
      apply forall₂_congr
      intro name _
      by_cases hgrad : p.has_grad name = true
      · simp only [hgrad, if_true, true_imp_iff]
        rw [sum_eq_zero_iff fun r _ => normSq_nonneg _]
        simp only [normSq_eq_zero_iff, mem_sortRanks]
      · simp [hgrad]
    · intro name _
      split_ifs
      · exact hranks name
      · exact le_rfl

theorem counted_nonneg {g : ℕ → String → List R} : 0 ≤ p.counted sqrt g := by
  have hsquare : ∀ norm : Option R, 0 ≤ square norm := by
    intro norm
    cases norm with
    | none => exact le_rfl
    | some x => exact mul_self_nonneg x
  unfold counted
  split_ifs
  · apply List.sum_nonneg
    intro x hx
    obtain ⟨r, _, rfl⟩ := List.mem_map.mp hx
    apply List.sum_nonneg
    intro y hy
    obtain ⟨name, _, rfl⟩ := List.mem_map.mp hy
    exact hsquare _
  · apply List.sum_nonneg
    intro x hx
    obtain ⟨name, _, rfl⟩ := List.mem_map.mp hx
    exact hsquare _

end Placement

/-- Two ranks with one parameter of two elements, which ZeRO distributes. -/
def twoRanks : GradPlacement ℝ where
  world_size := 2
  world_size_pos := by decide
  graph_id := "g"
  zero := true
  names := ["w"]
  nodup := List.nodup_singleton _
  param_id _ _ := 1
  param_id_inj _ _ hname _ hname' _ :=
    (List.mem_singleton.mp hname).trans (List.mem_singleton.mp hname').symm
  ranks _ := {0, 1}
  ranks_lt _ _ := by decide
  tag ranks := (Encodable.encode ranks : ℤ)
  tag_inj := Nat.cast_injective.comp Encodable.encode_injective
  numel _ := 2
  has_grad _ := true
  zero_has_grad _ _ _ _ := rfl
  grad _ _ := [1, 1]
  length_grad _ _ := rfl

end Rannc.GradPlacement
