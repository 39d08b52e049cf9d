import Rannc.Comp.ParamStorage

/-!
# Releasing parameters

The reference count of a parameter is the number of names by which graphs use it. Releasing a graph
takes off its own, and what is left at zero goes, except for marks that no call takes back.
-/
namespace Rannc.ParamStorage

variable {τ : Type} {s : ParamStorage τ}

/-- By how many names a parameter is used. -/
def uses (s : ParamStorage τ) (param_id : ℤ) : ℕ :=
  (s.graph_params.countP fun u => u.param_id = param_id) +
    s.unused_params.countP fun u => s.id_global_to_local u.param_id = some param_id

/-- All references to the parameter are in the list. -/
def Gone (s : ParamStorage τ) (l : List ℤ) (param_id : ℤ) : Prop :=
  s.ref_counts param_id = some (l.count param_id : ℤ)

instance (l : List ℤ) (param_id : ℤ) : Decidable (s.Gone l param_id) :=
  inferInstanceAs (Decidable (s.ref_counts param_id = some (l.count param_id : ℤ)))

/-- The references in the list are taken off. -/
def released (s : ParamStorage τ) (l : List ℤ) : ParamStorage τ :=
  { s with
    params := fun id => if s.Gone l id then none else s.params id
    ranks := fun id => if s.Gone l id then none else s.ranks id
    ref_counts := fun id =>
      if s.Gone l id then none else (s.ref_counts id).map (· - (l.count id : ℤ))
    id_local_to_global := fun id => if s.Gone l id then none else s.id_local_to_global id
    id_global_to_local := fun gl => (s.id_global_to_local gl).filter fun id =>
      ¬(s.Gone l id ∧ s.id_local_to_global id = some gl) }

theorem doReleaseParam_of_ne {param_id n : ℤ} (hcount : s.ref_counts param_id = some n)
    (hn : n ≠ 0) : doReleaseParam param_id s = .ok () s := by
  have hcond : ¬(s.ref_counts param_id).getD 0 = 0 := by
    rw [hcount]
    exact hn
  change (if (s.ref_counts param_id).getD 0 = 0 then _ else _ : StorageM τ Unit) s = _
  rw [if_neg hcond]
  rfl

theorem doReleaseParam_of_zero {param_id global_id : ℤ}
    (hcount : s.ref_counts param_id = some 0)
    (hglobal : s.id_local_to_global param_id = some global_id) :
    doReleaseParam param_id s = .ok () (eraseIds param_id global_id (eraseParam param_id s)) := by
  have hcond : (s.ref_counts param_id).getD 0 = 0 := by
    rw [hcount]
    rfl
  change (if (s.ref_counts param_id).getD 0 = 0 then _ else _ : StorageM τ Unit) s = _
  rw [if_pos hcond]
  change EStateM.bind (atKey (s.id_local_to_global param_id)) _ (eraseParam param_id s) = _
  rw [hglobal]
  rfl

theorem count_append_of_ne {l : List ℤ} {param_id x : ℤ} (hx : x ≠ param_id) :
    (l ++ [param_id]).count x = l.count x := by
  rw [List.count_append, List.count_singleton, if_neg (by simpa using hx.symm), Nat.add_zero]

theorem gone_append_of_ne {l : List ℤ} {param_id x : ℤ} (hx : x ≠ param_id) :
    s.Gone (l ++ [param_id]) x ↔ s.Gone l x := by
  unfold Gone
  rw [count_append_of_ne hx]

theorem gone_append_self {l : List ℤ} {param_id : ℤ} :
    s.Gone (l ++ [param_id]) param_id ↔
      s.ref_counts param_id = some (l.count param_id + 1 : ℤ) := by
  unfold Gone
  rw [List.count_append, List.count_singleton_self]
  push_cast
  rfl

/-- Taking off one more reference that does not leave zero. -/
theorem released_append_of_ne {l : List ℤ} {param_id n : ℤ}
    (hcount : s.ref_counts param_id = some n) (hl : (l.count param_id : ℤ) + 1 < n) :
    decRef param_id (s.released l) = s.released (l ++ [param_id]) := by
  have hgone : ¬s.Gone l param_id := by
    intro h
    have := Option.some.inj (hcount.symm.trans h)
    omega
  have hgone' : ¬s.Gone (l ++ [param_id]) param_id := by
    intro h
    have := Option.some.inj (hcount.symm.trans (gone_append_self.mp h))
    omega
  have hsame : ∀ x, s.Gone (l ++ [param_id]) x ↔ s.Gone l x := by
    intro x
    by_cases hx : x = param_id
    · rw [hx]
      exact iff_of_false hgone' hgone
    · exact gone_append_of_ne hx
  apply ParamStorage.ext
  all_goals dsimp only [decRef, released]
  · simp only [hsame]
  · simp only [hsame]
  · funext x
    by_cases hx : x = param_id
    · rw [hx, Function.update_self, if_neg hgone, if_neg hgone', hcount, List.count_append,
        List.count_singleton_self]
      simp only [Option.map_some, Option.getD_some]
      congr 1
      push_cast
      ring
    · rw [Function.update_of_ne hx, count_append_of_ne hx]
      simp only [hsame]
  · simp only [hsame]
  · simp only [hsame]

/-- Taking off the last reference. -/
theorem released_append_of_eq {l : List ℤ} {param_id global_id : ℤ}
    (hcount : s.ref_counts param_id = some (l.count param_id + 1 : ℤ))
    (hglobal : s.id_local_to_global param_id = some global_id)
    (hlocal : s.id_global_to_local global_id = some param_id) :
    eraseIds param_id global_id (eraseParam param_id (decRef param_id (s.released l))) =
      s.released (l ++ [param_id]) := by
  have hgone : ¬s.Gone l param_id := by
    intro h
    have := Option.some.inj (hcount.symm.trans h)
    omega
  have hgone' : s.Gone (l ++ [param_id]) param_id := gone_append_self.mpr hcount
  apply ParamStorage.ext
  all_goals dsimp only [decRef, released, eraseIds, eraseParam]
  · funext x
    by_cases hx : x = param_id
    · rw [hx, Function.update_self, if_pos hgone']
    · simp only [Function.update_of_ne hx, gone_append_of_ne hx]
  · funext x
    by_cases hx : x = param_id
    · rw [hx, Function.update_self, if_pos hgone']
    · simp only [Function.update_of_ne hx, gone_append_of_ne hx]
  · funext x
    by_cases hx : x = param_id
    · rw [hx, Function.update_self, if_pos hgone']
    · rw [Function.update_of_ne hx, Function.update_of_ne hx, count_append_of_ne hx]
      simp only [gone_append_of_ne hx]
  · funext gl
    by_cases hgl : gl = global_id
    · rw [hgl, Function.update_self, hlocal, Option.filter_some, if_neg]
      simpa using ⟨hgone', hglobal⟩
    · rw [Function.update_of_ne hgl]
      congr 1
      funext x
      by_cases hx : x = param_id
      · have hne : ¬s.id_local_to_global x = some gl := by
          rw [hx, hglobal]
          exact fun h => hgl (Option.some.inj h).symm
        simp only [hne, and_false]
      · simp only [gone_append_of_ne hx]
  · funext x
    by_cases hx : x = param_id
    · rw [hx, Function.update_self, if_pos hgone']
    · simp only [Function.update_of_ne hx, gone_append_of_ne hx]

/-- The parameter is known, by a global id that is its own. -/
def Known (s : ParamStorage τ) (param_id : ℤ) : Prop :=
  ∃ global_id, s.id_local_to_global param_id = some global_id ∧
    s.id_global_to_local global_id = some param_id

/-- The list is of known parameters and takes off no more references than there are. -/
def Covered (s : ParamStorage τ) (l : List ℤ) : Prop :=
  ∀ id ∈ l, s.Known id ∧ ∃ n, s.ref_counts id = some n ∧ (l.count id : ℤ) ≤ n

theorem Covered.append_left {l l' : List ℤ} (h : s.Covered (l ++ l')) : s.Covered l := by
  intro id hid
  obtain ⟨hknown, n, hn, hle⟩ := h id (List.mem_append_left _ hid)
  refine ⟨hknown, n, hn, ?_⟩
  rw [List.count_append] at hle
  push_cast at hle
  omega

theorem releaseParam_released {l : List ℤ} {param_id : ℤ} (h : s.Covered (l ++ [param_id])) :
    releaseParam param_id (s.released l) = .ok () (s.released (l ++ [param_id])) := by
  obtain ⟨⟨global_id, hglobal, hlocal⟩, n, hcount, hle⟩ :=
    h param_id (List.mem_append_right _ (List.mem_singleton_self _))
  rw [List.count_append, List.count_singleton_self] at hle
  push_cast at hle
  have hgone : ¬s.Gone l param_id := by
    intro hg
    have := Option.some.inj (hcount.symm.trans hg)
    omega
  have hdec : (decRef param_id (s.released l)).ref_counts param_id =
      some (n - l.count param_id - 1) := by
    dsimp only [decRef, released]
    rw [Function.update_self, if_neg hgone, hcount]
    rfl
  change doReleaseParam param_id (decRef param_id (s.released l)) = _
  by_cases hlast : n = l.count param_id + 1
  · have hzero : (decRef param_id (s.released l)).ref_counts param_id = some 0 := by
      rw [hdec, hlast]
      congr 1
      ring
    have hknown :
        (decRef param_id (s.released l)).id_local_to_global param_id = some global_id := by
      dsimp only [decRef, released]
      rw [if_neg hgone, hglobal]
    rw [doReleaseParam_of_zero hzero hknown,
      released_append_of_eq (hlast ▸ hcount) hglobal hlocal]
  · rw [doReleaseParam_of_ne hdec (by omega), released_append_of_ne hcount (by omega)]

theorem forM_released {α : Type} {body : α → StorageM τ Unit} {items : List α} {ids : List ℤ}
    (hbody : List.Forall₂ (fun a id => ∀ l, s.Covered (l ++ [id]) →
      body a (s.released l) = .ok () (s.released (l ++ [id]))) items ids)
    {l : List ℤ} (h : s.Covered (l ++ ids)) :
    items.forM body (s.released l) = .ok () (s.released (l ++ ids)) := by
  induction hbody generalizing l with
  | nil =>
    rw [List.append_nil]
    rfl
  | @cons a id items ids hstep _ ih =>
    have hl : l ++ id :: ids = (l ++ [id]) ++ ids := by simp
    rw [hl] at h ⊢
    have hone := hstep l h.append_left
    change EStateM.bind (body a) (fun _ => items.forM body) (s.released l) = _
    unfold EStateM.bind
    rw [hone]
    exact ih h

theorem releaseUnused_released {l : List ℤ} {param_id global_id : ℤ}
    (hlocal : s.id_global_to_local global_id = some param_id) (h : s.Covered (l ++ [param_id])) :
    releaseUnused global_id (s.released l) = .ok () (s.released (l ++ [param_id])) := by
  have hgone : ¬s.Gone l param_id := by
    intro hg
    obtain ⟨-, n, hcount, hle⟩ := h param_id (List.mem_append_right _ (List.mem_singleton_self _))
    rw [List.count_append, List.count_singleton_self] at hle
    have := Option.some.inj (hcount.symm.trans hg)
    push_cast at hle
    omega
  have hfound : (s.released l).id_global_to_local global_id = some param_id := by
    dsimp only [released]
    rw [hlocal, Option.filter_some, if_pos]
    simpa using Or.inl hgone
  change EStateM.bind (atKey ((s.released l).id_global_to_local global_id)) releaseParam
    (s.released l) = _
  rw [hfound]
  exact releaseParam_released h

/-- The parameters that a graph uses, once for each name. -/
def usedIds (s : ParamStorage τ) (graph_id : String) : List ℤ :=
  usesOf graph_id s.graph_params ++
    (usesOf graph_id s.unused_params).filterMap s.id_global_to_local

def UsedBy (s : ParamStorage τ) (graph_id : String) (param_id : ℤ) : Prop :=
  param_id ∈ s.usedIds graph_id

/-- No other graph than this one uses the parameter. -/
def LastUser (s : ParamStorage τ) (graph_id : String) (param_id : ℤ) : Prop :=
  s.UsedBy graph_id param_id ∧ ∀ other, s.UsedBy other param_id → other = graph_id

theorem count_usedIds (graph_id : String) (param_id : ℤ) :
    (s.usedIds graph_id).count param_id =
      (s.graph_params.countP fun u => u.graph_id = graph_id ∧ u.param_id = param_id) +
        s.unused_params.countP fun u =>
          u.graph_id = graph_id ∧ s.id_global_to_local u.param_id = some param_id := by
  unfold usedIds usesOf
  rw [List.count_append, List.count_filterMap, List.countP_map, List.countP_filter, List.count,
    List.countP_map, List.countP_filter]
  congr 1
  · apply List.countP_congr
    intro u _
    simp [and_comm]
  · apply List.countP_congr
    intro u _
    simp [and_comm]

/-- By how many names other graphs use a parameter. -/
def otherUses (s : ParamStorage τ) (graph_id : String) (param_id : ℤ) : ℕ :=
  (s.graph_params.filter fun u => u.graph_id ≠ graph_id).countP
      (fun u => u.param_id = param_id) +
    (s.unused_params.filter fun u => u.graph_id ≠ graph_id).countP
      fun u => s.id_global_to_local u.param_id = some param_id

theorem uses_eq (graph_id : String) (param_id : ℤ) :
    s.uses param_id =
      (s.usedIds graph_id).count param_id + s.otherUses graph_id param_id := by
  have hsplit : ∀ (table : List ParamUse) (p : ParamUse → Prop) [DecidablePred p],
      table.countP (fun u => p u) = table.countP (fun u => u.graph_id = graph_id ∧ p u) +
        (table.filter fun u => u.graph_id ≠ graph_id).countP fun u => p u := by
    intro table p _
    rw [List.countP_filter, List.countP_eq_countP_filter_add table _
      fun u => u.graph_id = graph_id, List.countP_filter, List.countP_filter]
    congr 1
    · apply List.countP_congr
      intro u _
      simp [and_comm]
    · apply List.countP_congr
      intro u _
      simp
  rw [count_usedIds]
  unfold uses otherUses
  rw [hsplit s.graph_params, hsplit s.unused_params]
  omega

theorem usedBy_iff {graph_id : String} {param_id : ℤ} :
    s.UsedBy graph_id param_id ↔
      (∃ u ∈ s.graph_params, u.graph_id = graph_id ∧ u.param_id = param_id) ∨
        ∃ u ∈ s.unused_params, u.graph_id = graph_id ∧
          s.id_global_to_local u.param_id = some param_id := by
  unfold UsedBy usedIds usesOf
  simp only [List.mem_append, List.mem_map, List.mem_filter, List.mem_filterMap,
    decide_eq_true_eq]
  constructor
  · rintro (⟨u, ⟨hu, hg⟩, hid⟩ | ⟨gl, ⟨u, ⟨hu, hg⟩, rfl⟩, hid⟩)
    · exact Or.inl ⟨u, hu, hg, hid⟩
    · exact Or.inr ⟨u, hu, hg, hid⟩
  · rintro (⟨u, hu, hg, hid⟩ | ⟨u, hu, hg, hid⟩)
    · exact Or.inl ⟨u, ⟨hu, hg⟩, hid⟩
    · exact Or.inr ⟨_, ⟨u, ⟨hu, hg⟩, rfl⟩, hid⟩

theorem uses_pos_iff {param_id : ℤ} : 0 < s.uses param_id ↔ ∃ g, s.UsedBy g param_id := by
  unfold uses
  rw [Nat.add_pos_iff_pos_or_pos, List.countP_pos_iff, List.countP_pos_iff]
  simp only [usedBy_iff, decide_eq_true_eq]
  constructor
  · rintro (⟨u, hu, hid⟩ | ⟨u, hu, hid⟩)
    · exact ⟨u.graph_id, Or.inl ⟨u, hu, rfl, hid⟩⟩
    · exact ⟨u.graph_id, Or.inr ⟨u, hu, rfl, hid⟩⟩
  · rintro ⟨g, ⟨u, hu, -, hid⟩ | ⟨u, hu, -, hid⟩⟩
    · exact Or.inl ⟨u, hu, hid⟩
    · exact Or.inr ⟨u, hu, hid⟩

theorem otherUses_pos_iff {graph_id : String} {param_id : ℤ} :
    0 < s.otherUses graph_id param_id ↔ ∃ other, s.UsedBy other param_id ∧ other ≠ graph_id := by
  unfold otherUses
  rw [Nat.add_pos_iff_pos_or_pos, List.countP_pos_iff, List.countP_pos_iff]
  simp only [usedBy_iff, decide_eq_true_eq, List.mem_filter]
  constructor
  · rintro (⟨u, ⟨hu, hg⟩, hid⟩ | ⟨u, ⟨hu, hg⟩, hid⟩)
    · exact ⟨u.graph_id, Or.inl ⟨u, hu, rfl, hid⟩, hg⟩
    · exact ⟨u.graph_id, Or.inr ⟨u, hu, rfl, hid⟩, hg⟩
  · rintro ⟨_, ⟨u, hu, rfl, hid⟩ | ⟨u, hu, rfl, hid⟩, hg⟩
    · exact Or.inl ⟨u, ⟨hu, hg⟩, hid⟩
    · exact Or.inr ⟨u, ⟨hu, hg⟩, hid⟩

/-- The reference counts are right, and of the parameters that are used the global ids are known. -/
structure Counted (s : ParamStorage τ) : Prop where
  counts : ∀ id, s.ref_counts id = if s.uses id = 0 then none else some (s.uses id : ℤ)
  inverse : ∀ id gl, s.id_local_to_global id = some gl → s.id_global_to_local gl = some id
  used : ∀ u ∈ s.graph_params, s.id_local_to_global u.param_id ≠ none
  unused : ∀ u ∈ s.unused_params, ∃ id, s.id_local_to_global id = some u.param_id
  keys : (s.graph_params.map ParamUse.key).Nodup

theorem Counted.known (h : s.Counted) {id : ℤ} (hid : 0 < s.uses id) : s.Known id := by
  obtain ⟨g, hg⟩ := uses_pos_iff.mp hid
  cases usedBy_iff.mp hg with
  | inl hused =>
    obtain ⟨u, hu, -, rfl⟩ := hused
    obtain ⟨gl, hgl⟩ := Option.ne_none_iff_exists'.mp (h.used u hu)
    exact ⟨gl, hgl, h.inverse _ _ hgl⟩
  | inr hunused =>
    obtain ⟨u, hu, -, hlocal⟩ := hunused
    obtain ⟨id', hid'⟩ := h.unused u hu
    have heq : id' = id := Option.some.inj ((h.inverse _ _ hid').symm.trans hlocal)
    exact ⟨u.param_id, heq ▸ hid', hlocal⟩

theorem Counted.ref_count (h : s.Counted) {id : ℤ} (hid : 0 < s.uses id) :
    s.ref_counts id = some (s.uses id : ℤ) := by
  rw [h.counts, if_neg (Nat.pos_iff_ne_zero.mp hid)]

theorem Counted.covered (h : s.Counted) (graph_id : String) : s.Covered (s.usedIds graph_id) := by
  intro id hid
  have hpos : 0 < s.uses id := uses_pos_iff.mpr ⟨graph_id, hid⟩
  refine ⟨h.known hpos, _, h.ref_count hpos, ?_⟩
  rw [uses_eq graph_id id]
  push_cast
  omega

theorem lastUser_iff {graph_id : String} {id : ℤ} :
    s.LastUser graph_id id ↔ 0 < s.uses id ∧ s.otherUses graph_id id = 0 := by
  constructor
  · intro hlast
    refine ⟨uses_pos_iff.mpr ⟨graph_id, hlast.1⟩, ?_⟩
    by_contra hne
    obtain ⟨other, hother, hdiff⟩ := otherUses_pos_iff.mp (Nat.pos_of_ne_zero hne)
    exact hdiff (hlast.2 other hother)
  · intro h
    have honly : ∀ other, s.UsedBy other id → other = graph_id := by
      intro other hother
      by_contra hne
      exact absurd (otherUses_pos_iff.mpr ⟨other, hother, hne⟩) (by omega)
    obtain ⟨g, hg⟩ := uses_pos_iff.mp h.1
    exact ⟨honly g hg ▸ hg, honly⟩

instance (graph_id : String) (id : ℤ) : Decidable (s.LastUser graph_id id) :=
  decidable_of_iff _ lastUser_iff.symm

theorem Counted.gone_iff (h : s.Counted) {graph_id : String} {id : ℤ} :
    s.Gone (s.usedIds graph_id) id ↔ s.LastUser graph_id id := by
  rw [lastUser_iff]
  have huses := uses_eq (s := s) graph_id id
  unfold Gone
  rw [h.counts]
  split_ifs with hzero
  · constructor
    · intro hnone
      cases hnone
    · intro hpos
      omega
  · rw [Option.some.injEq, Nat.cast_inj]
    omega

theorem forall₂_filterMap {α β : Type} {f : α → Option β} {R : α → β → Prop} {l : List α}
    (h : ∀ a ∈ l, ∃ b, f a = some b ∧ R a b) : List.Forall₂ R l (l.filterMap f) := by
  induction l with
  | nil => exact List.Forall₂.nil
  | cons a l ih =>
    obtain ⟨b, hb, hR⟩ := h a List.mem_cons_self
    rw [List.filterMap_cons_some hb]
    exact List.Forall₂.cons hR (ih fun a ha => h a (List.mem_cons_of_mem _ ha))

theorem released_nil (h : s.Counted) : s.released [] = s := by
  have hgone : ∀ id, ¬s.Gone [] id := by
    intro id hid
    unfold Gone at hid
    rw [h.counts] at hid
    split_ifs at hid with hzero
    rw [Option.some.injEq, Nat.cast_inj] at hid
    exact hzero hid
  apply ParamStorage.ext
  all_goals dsimp only [released]
  all_goals simp only [hgone, if_false, List.count_nil, false_and, not_false_eq_true, decide_true]
  · funext id
    simp
  · funext gl
    cases s.id_global_to_local gl <;> rfl

/-- The call returns, and all references of the graph have been taken off. -/
theorem releaseGraphParams_eq (h : s.Counted) (graph_id : String) :
    releaseGraphParams graph_id s =
      .ok () (eraseGraph graph_id (s.released (s.usedIds graph_id))) := by
  have hcovered := h.covered graph_id
  have hfirst : (usesOf graph_id s.graph_params).forM releaseParam (s.released []) =
      .ok () (s.released ([] ++ usesOf graph_id s.graph_params)) := by
    apply forM_released
    · apply List.forall₂_same.mpr
      intro id _ l hl
      exact releaseParam_released hl
    · exact hcovered.append_left
  have hsecond : (usesOf graph_id s.unused_params).forM releaseUnused
      (s.released (usesOf graph_id s.graph_params)) =
        .ok () (s.released (s.usedIds graph_id)) := by
    apply forM_released _ hcovered
    apply forall₂_filterMap
    intro gl hgl
    obtain ⟨u, hu, rfl⟩ := List.mem_map.mp hgl
    obtain ⟨id, hid⟩ := h.unused u (List.mem_of_mem_filter hu)
    have hlocal := h.inverse _ _ hid
    exact ⟨id, hlocal, fun l hl => releaseUnused_released hlocal hl⟩
  rw [released_nil h, List.nil_append] at hfirst
  change EStateM.bind ((usesOf graph_id s.graph_params).forM releaseParam) _ s = _
  unfold EStateM.bind
  rw [hfirst]
  change EStateM.bind ((usesOf graph_id s.unused_params).forM releaseUnused) _ _ = _
  unfold EStateM.bind
  rw [hsecond]
  rfl

/-- The state after a graph is released. -/
def afterRelease (s : ParamStorage τ) (graph_id : String) : ParamStorage τ :=
  eraseGraph graph_id (s.released (s.usedIds graph_id))

theorem not_lastUser_of_used {graph_id : String} {u : ParamUse} {id : ℤ}
    (hu : s.UsedBy u.graph_id id) (hgraph : u.graph_id ≠ graph_id) : ¬s.LastUser graph_id id :=
  fun hlast => hgraph (hlast.2 _ hu)

theorem Counted.afterRelease_local (h : s.Counted) {graph_id : String} {gl id : ℤ}
    (hlast : ¬s.LastUser graph_id id) (hlocal : s.id_global_to_local gl = some id) :
    (s.afterRelease graph_id).id_global_to_local gl = some id := by
  dsimp only [afterRelease, eraseGraph, released]
  rw [hlocal, Option.filter_some, if_pos]
  simpa using Or.inl (h.gone_iff.not.mpr hlast)

theorem Counted.afterRelease_global (h : s.Counted) {graph_id : String} {id : ℤ} :
    (s.afterRelease graph_id).id_local_to_global id =
      if s.LastUser graph_id id then none else s.id_local_to_global id := by
  dsimp only [afterRelease, eraseGraph, released]
  by_cases hlast : s.LastUser graph_id id
  · rw [if_pos hlast, if_pos (h.gone_iff.mpr hlast)]
  · rw [if_neg hlast, if_neg (h.gone_iff.not.mpr hlast)]

theorem Counted.uses_afterRelease (h : s.Counted) (graph_id : String) (id : ℤ) :
    (s.afterRelease graph_id).uses id = s.otherUses graph_id id := by
  unfold uses otherUses
  congr 1
  apply List.countP_congr
  intro u hu
  obtain ⟨hu, hgraph⟩ := List.mem_filter.mp hu
  rw [decide_eq_true_eq, decide_eq_true_eq]
  constructor
  · intro hid
    dsimp only [afterRelease, eraseGraph, released] at hid
    exact (Option.filter_eq_some_iff.mp hid).1
  · intro hid
    apply h.afterRelease_local _ hid
    exact not_lastUser_of_used (usedBy_iff.mpr (Or.inr ⟨u, hu, rfl, hid⟩))
      (of_decide_eq_true hgraph)

theorem Counted.afterRelease (h : s.Counted) (graph_id : String) :
    (s.afterRelease graph_id).Counted := by
  constructor
  · intro id
    rw [h.uses_afterRelease]
    have huses := uses_eq (s := s) graph_id id
    dsimp only [ParamStorage.afterRelease, eraseGraph, released]
    by_cases hgone : s.Gone (s.usedIds graph_id) id
    · rw [if_pos hgone, if_pos (lastUser_iff.mp (h.gone_iff.mp hgone)).2]
    · rw [if_neg hgone, h.counts]
      have hleft : ¬(0 < s.uses id ∧ s.otherUses graph_id id = 0) :=
        lastUser_iff.not.mp (h.gone_iff.not.mp hgone)
      by_cases hzero : s.uses id = 0
      · rw [if_pos hzero, if_pos (by omega)]
        rfl
      · rw [if_neg hzero, if_neg (by omega), Option.map_some, huses]
        congr 1
        push_cast
        ring
  · intro id gl hgl
    rw [h.afterRelease_global] at hgl
    split_ifs at hgl with hlast
    exact h.afterRelease_local hlast (h.inverse _ _ hgl)
  · intro u hu
    obtain ⟨hu, hgraph⟩ := List.mem_filter.mp hu
    rw [h.afterRelease_global, if_neg]
    · exact h.used u hu
    · exact not_lastUser_of_used (usedBy_iff.mpr (Or.inl ⟨u, hu, rfl, rfl⟩))
        (of_decide_eq_true hgraph)
  · intro u hu
    obtain ⟨hu, hgraph⟩ := List.mem_filter.mp hu
    obtain ⟨id, hid⟩ := h.unused u hu
    refine ⟨id, ?_⟩
    rw [h.afterRelease_global, if_neg]
    · exact hid
    · exact not_lastUser_of_used (usedBy_iff.mpr (Or.inr ⟨u, hu, rfl, h.inverse _ _ hid⟩))
        (of_decide_eq_true hgraph)
  · exact h.keys.sublist (List.filter_sublist.map _)

end Rannc.ParamStorage
