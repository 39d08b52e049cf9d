import Rannc.Torch.IValue
import Rannc.Lib.OptionRel

/-!
# Values of the same shape

Two values are related if they are the same tree and the tensors at the same places are related.
Values that are aggregated place by place stay related.
-/
namespace Rannc.IValue

variable {T U : Type} (R : T → U → Prop)

mutual

/-- The values are the same tree, and the tensors at the same places are related. -/
def Related : IValue T → IValue U → Prop
  | tensor t, v => ∃ u, v = tensor u ∧ R t u
  | tensorList ts, v => ∃ us, v = tensorList us ∧ List.Forall₂ R ts us
  | list elem_type elems, v => ∃ elems', v = list elem_type elems' ∧ RelatedAll elems elems'
  | tuple elems, v => ∃ elems', v = tuple elems' ∧ RelatedAll elems elems'
  | scalarList l, v => v = scalarList l
  | scalar x, v => v = scalar x

def RelatedAll : List (IValue T) → List (IValue U) → Prop
  | [], vs => vs = []
  | e :: es, vs => ∃ v vs', vs = v :: vs' ∧ Related e v ∧ RelatedAll es vs'

end

@[simp] theorem relatedAll_iff {es : List (IValue T)} {vs : List (IValue U)} :
    RelatedAll R es vs ↔ List.Forall₂ (Related R) es vs := by
  induction es generalizing vs with
  | nil => simp [RelatedAll]
  | cons e es ih =>
    simp only [RelatedAll, ih, List.forall₂_cons_left_iff]
    constructor
    · rintro ⟨v, vs', rfl, hv, hvs⟩
      exact ⟨v, vs', hv, hvs, rfl⟩
    · rintro ⟨v, vs', hv, hvs, rfl⟩
      exact ⟨v, vs', rfl, hv, hvs⟩

variable {R} {V : IValue T} {v : IValue U}

theorem mapM_toTensor {ts : List T} {vs : List (IValue U)}
    (h : List.Forall₂ (Related R) (ts.map tensor) vs) :
    ∃ us, vs.mapM toTensor = some us ∧ List.Forall₂ R ts us := by
  induction ts generalizing vs with
  | nil =>
    obtain rfl := List.forall₂_nil_left_iff.mp h
    exact ⟨[], rfl, List.Forall₂.nil⟩
  | cons t ts ih =>
    obtain ⟨_, vs, ⟨u, rfl, hu⟩, hvs, rfl⟩ := List.forall₂_cons_left_iff.mp h
    obtain ⟨us, hus, hrest⟩ := ih hvs
    refine ⟨u :: us, ?_, List.Forall₂.cons hu hrest⟩
    rw [List.mapM_cons, hus]
    rfl

theorem Related.imp_of_mem {S : T → U → Prop} (h : V.Related R v)
    (hRS : ∀ t ∈ V.tensors, ∀ u, R t u → S t u) : V.Related S v := by
  induction V using IValue.induction generalizing v with
  | tensor t =>
    obtain ⟨u, rfl, hu⟩ := h
    exact ⟨u, rfl, hRS t (by simp [tensors]) u hu⟩
  | tensorList ts =>
    obtain ⟨us, rfl, hus⟩ := h
    exact ⟨us, rfl, forall₂_imp_of_mem hus hRS⟩
  | scalarList l => exact h
  | list elem_type elems ih =>
    obtain ⟨vs, rfl, hvs⟩ := h
    refine ⟨vs, rfl, (relatedAll_iff S).mpr (forall₂_imp_of_mem ((relatedAll_iff R).mp hvs) ?_)⟩
    intro e he v hv
    refine ih e he hv fun t ht => hRS t ?_
    rw [tensors, tensorsAll_eq]
    exact List.mem_flatMap.mpr ⟨e, he, ht⟩
  | tuple elems ih =>
    obtain ⟨vs, rfl, hvs⟩ := h
    refine ⟨vs, rfl, (relatedAll_iff S).mpr (forall₂_imp_of_mem ((relatedAll_iff R).mp hvs) ?_)⟩
    intro e he v hv
    refine ih e he hv fun t ht => hRS t ?_
    rw [tensors, tensorsAll_eq]
    exact List.mem_flatMap.mpr ⟨e, he, ht⟩
  | scalar x => exact h

theorem Related.imp {S : T → U → Prop} (h : V.Related R v) (hRS : ∀ t u, R t u → S t u) :
    V.Related S v :=
  h.imp_of_mem fun t _ u => hRS t u

theorem exists_of_forall₂_left {P : T → Prop} (hP : ∀ t u, R t u → P t) {ts : List T} {us : List U}
    (h : List.Forall₂ R ts us) : ∀ t ∈ ts, P t := by
  induction h with
  | nil => exact fun t ht => absurd ht List.not_mem_nil
  | cons htu _ ih => exact List.forall_mem_cons.mpr ⟨hP _ _ htu, ih⟩

/-- What holds of every tensor that has a related one. -/
theorem Related.forall_tensors {P : T → Prop} (h : V.Related R v) (hP : ∀ t u, R t u → P t) :
    ∀ t ∈ V.tensors, P t := by
  have helems {elems : List (IValue T)} {vs : List (IValue U)}
      (ih : ∀ e ∈ elems, ∀ {v}, Related R e v → ∀ t ∈ e.tensors, P t)
      (hvs : List.Forall₂ (Related R) elems vs) : ∀ t ∈ elems.flatMap tensors, P t := by
    intro t ht
    obtain ⟨e, he, hte⟩ := List.mem_flatMap.mp ht
    obtain ⟨i, hi, rfl⟩ := List.getElem_of_mem he
    exact ih _ he ((List.forall₂_iff_get.mp hvs).2 i hi (hvs.length_eq ▸ hi)) t hte
  induction V using IValue.induction generalizing v with
  | tensor t =>
    obtain ⟨u, rfl, hu⟩ := h
    intro t' ht'
    obtain rfl := List.mem_singleton.mp ht'
    exact hP _ _ hu
  | tensorList ts =>
    obtain ⟨us, rfl, hus⟩ := h
    exact exists_of_forall₂_left hP hus
  | scalarList l => exact fun t ht => absurd ht List.not_mem_nil
  | list elem_type elems ih =>
    obtain ⟨vs, rfl, hvs⟩ := h
    rw [tensors, tensorsAll_eq]
    exact helems ih ((relatedAll_iff R).mp hvs)
  | tuple elems ih =>
    obtain ⟨vs, rfl, hvs⟩ := h
    rw [tensors, tensorsAll_eq]
    exact helems ih ((relatedAll_iff R).mp hvs)
  | scalar x => exact fun t ht => absurd ht List.not_mem_nil

theorem transform_eq_self {f : T → T} (h : ∀ t ∈ V.tensors, f t = t) :
    V.transformTensorsInIValue f = V := by
  have helems {elems : List (IValue T)} (ih : ∀ e ∈ elems, (∀ t ∈ e.tensors, f t = t) →
      e.transformTensorsInIValue f = e) (h : ∀ t ∈ elems.flatMap tensors, f t = t) :
      elems.map (transformTensorsInIValue f) = elems := by
    refine (List.map_congr_left fun e he => ih e he fun t ht => h t ?_).trans (List.map_id' _)
    exact List.mem_flatMap.mpr ⟨e, he, ht⟩
  induction V using IValue.induction with
  | tensor t => exact congrArg tensor (h t (by simp [tensors]))
  | tensorList ts => exact congrArg tensorList ((List.map_congr_left h).trans (List.map_id' _))
  | scalarList l => rfl
  | list elem_type elems ih =>
    rw [tensors, tensorsAll_eq] at h
    rw [transformTensorsInIValue, transformAll_eq, helems ih h]
  | tuple elems ih =>
    rw [tensors, tensorsAll_eq] at h
    rw [transformTensorsInIValue, transformAll_eq, helems ih h]
  | scalar x => rfl

theorem Related.flip (h : V.Related R v) : v.Related (fun u t => R t u) V := by
  have helems {elems : List (IValue T)} {vs : List (IValue U)}
      (ih : ∀ e ∈ elems, ∀ {v : IValue U}, e.Related R v → v.Related (fun u t => R t u) e)
      (hvs : RelatedAll R elems vs) : RelatedAll (fun u t => R t u) vs elems := by
    rw [relatedAll_iff] at hvs ⊢
    exact (forall₂_imp_of_mem (Q := fun e v => Related (fun u t => R t u) v e) hvs
      fun e he v hv => ih e he hv).flip
  induction V using IValue.induction generalizing v with
  | tensor t =>
    obtain ⟨u, rfl, hu⟩ := h
    exact ⟨t, rfl, hu⟩
  | tensorList ts =>
    obtain ⟨us, rfl, hus⟩ := h
    exact ⟨ts, rfl, hus.flip⟩
  | scalarList l =>
    obtain rfl : v = .scalarList l := h
    rfl
  | list elem_type elems ih =>
    obtain ⟨vs, rfl, hvs⟩ := h
    exact ⟨elems, rfl, helems ih hvs⟩
  | tuple elems ih =>
    obtain ⟨vs, rfl, hvs⟩ := h
    exact ⟨elems, rfl, helems ih hvs⟩
  | scalar x =>
    obtain rfl : v = .scalar x := h
    rfl

theorem Related.imp_of_mem_both {S : T → U → Prop} (h : V.Related R v)
    (hRS : ∀ t ∈ V.tensors, ∀ u ∈ v.tensors, R t u → S t u) : V.Related S v := by
  have hleft : V.Related (fun t u => R t u ∧ t ∈ V.tensors) v :=
    h.imp_of_mem fun t ht u htu => ⟨htu, ht⟩
  exact (hleft.flip.imp_of_mem (S := fun u t => S t u) fun u hu t htu =>
    hRS t htu.2 u hu htu.1).flip

theorem related_transform_self {f : T → U} (h : ∀ t ∈ V.tensors, R t (f t)) :
    V.Related R (V.transformTensorsInIValue f) := by
  have helems {elems : List (IValue T)}
      (ih : ∀ e ∈ elems, (∀ t ∈ e.tensors, R t (f t)) → e.Related R (e.transformTensorsInIValue f))
      (h : ∀ t ∈ elems.flatMap tensors, R t (f t)) :
      List.Forall₂ (Related R) elems (elems.map (transformTensorsInIValue f)) := by
    rw [List.forall₂_map_right_iff]
    exact List.forall₂_same.mpr fun e he => ih e he fun t ht =>
      h t (List.mem_flatMap.mpr ⟨e, he, ht⟩)
  induction V using IValue.induction with
  | tensor t => exact ⟨_, rfl, h t (by simp [tensors])⟩
  | tensorList ts =>
    refine ⟨_, rfl, ?_⟩
    rw [List.forall₂_map_right_iff]
    exact List.forall₂_same.mpr h
  | scalarList l => rfl
  | list elem_type elems ih =>
    rw [tensors, tensorsAll_eq] at h
    exact ⟨_, by rw [transformTensorsInIValue, transformAll_eq],
      (relatedAll_iff R).mpr (helems ih h)⟩
  | tuple elems ih =>
    rw [tensors, tensorsAll_eq] at h
    exact ⟨_, by rw [transformTensorsInIValue, transformAll_eq],
      (relatedAll_iff R).mpr (helems ih h)⟩
  | scalar x => rfl

/-- A value is known once its tensors are. -/
theorem Related.eq_transform {f : T → U} (h : V.Related (fun t u => u = f t) v) :
    v = V.transformTensorsInIValue f := by
  have helems {elems : List (IValue T)} {vs : List (IValue U)}
      (ih : ∀ e ∈ elems, ∀ {v}, e.Related (fun t u => u = f t) v →
        v = e.transformTensorsInIValue f)
      (hvs : List.Forall₂ (Related fun t u => u = f t) elems vs) :
      elems.map (transformTensorsInIValue f) = vs := by
    have hmap := forall₂_imp_of_mem (Q := fun e v => e.transformTensorsInIValue f = v) hvs
      fun e he v hv => (ih e he hv).symm
    rwa [← List.forall₂_map_left_iff, List.forall₂_eq_eq_eq] at hmap
  induction V using IValue.induction generalizing v with
  | tensor t =>
    obtain ⟨u, rfl, rfl⟩ := h
    rfl
  | tensorList ts =>
    obtain ⟨us, rfl, hus⟩ := h
    have hmap := hus.imp (S := fun t u => f t = u) fun _ _ h => h.symm
    rw [← List.forall₂_map_left_iff, List.forall₂_eq_eq_eq] at hmap
    exact congrArg tensorList hmap.symm
  | scalarList l => exact h
  | list elem_type elems ih =>
    obtain ⟨vs, rfl, hvs⟩ := h
    rw [transformTensorsInIValue, transformAll_eq, helems ih ((relatedAll_iff _).mp hvs)]
  | tuple elems ih =>
    obtain ⟨vs, rfl, hvs⟩ := h
    rw [transformTensorsInIValue, transformAll_eq, helems ih ((relatedAll_iff _).mp hvs)]
  | scalar x => exact h

theorem related_iff_eq_transform {P : T → Prop} {f : T → U} (hR : ∀ t u, R t u ↔ P t ∧ u = f t) :
    V.Related R v ↔ (∀ t ∈ V.tensors, P t) ∧ v = V.transformTensorsInIValue f := by
  constructor
  · intro h
    exact ⟨h.forall_tensors fun t u htu => ((hR t u).mp htu).1,
      (h.imp fun t u htu => ((hR t u).mp htu).2).eq_transform⟩
  · rintro ⟨hP, rfl⟩
    exact related_transform_self fun t ht => (hR t _).mpr ⟨hP t ht, rfl⟩

variable {T' U' : Type}

theorem related_transform_left {R : T' → U → Prop} {f : T → T'} :
    (V.transformTensorsInIValue f).Related R v ↔ V.Related (fun t u => R (f t) u) v := by
  have helems {elems : List (IValue T)} (ih : ∀ e ∈ elems, ∀ {v : IValue U},
      (e.transformTensorsInIValue f).Related R v ↔ e.Related (fun t u => R (f t) u) v)
      (vs : List (IValue U)) : RelatedAll R (elems.map (transformTensorsInIValue f)) vs ↔
        RelatedAll (fun t u => R (f t) u) elems vs := by
    rw [relatedAll_iff, relatedAll_iff, List.forall₂_map_left_iff]
    exact ⟨fun h => forall₂_imp_of_mem h fun e he v hv => (ih e he).mp hv,
      fun h => forall₂_imp_of_mem h fun e he v hv => (ih e he).mpr hv⟩
  induction V using IValue.induction generalizing v with
  | tensor t => rfl
  | tensorList ts =>
    simp only [transformTensorsInIValue, Related, List.forall₂_map_left_iff]
  | scalarList l => rfl
  | list elem_type elems ih => simp only [transformTensorsInIValue, transformAll_eq, Related,
      helems ih]
  | tuple elems ih => simp only [transformTensorsInIValue, transformAll_eq, Related, helems ih]
  | scalar x => rfl

theorem Related.of_transform_right {R : T → U' → Prop} {f : U → U'}
    (h : V.Related R (v.transformTensorsInIValue f)) : V.Related (fun t u => R t (f u)) v := by
  have helems {elems : List (IValue T)} (ih : ∀ e ∈ elems, ∀ {v : IValue U},
      e.Related R (v.transformTensorsInIValue f) → e.Related (fun t u => R t (f u)) v)
      {vs : List (IValue U)} (hvs : RelatedAll R elems (vs.map (transformTensorsInIValue f))) :
      RelatedAll (fun t u => R t (f u)) elems vs := by
    rw [relatedAll_iff, List.forall₂_map_right_iff] at hvs
    rw [relatedAll_iff]
    exact forall₂_imp_of_mem hvs fun e he v hv => ih e he hv
  induction V using IValue.induction generalizing v with
  | tensor t =>
    obtain ⟨u, hv, hu⟩ := h
    cases v with
    | tensor u' =>
      obtain rfl := IValue.tensor.inj hv
      exact ⟨u', rfl, hu⟩
    | _ => simp [transformTensorsInIValue] at hv
  | tensorList ts =>
    obtain ⟨us, hv, hus⟩ := h
    cases v with
    | tensorList us' =>
      obtain rfl := IValue.tensorList.inj hv
      exact ⟨us', rfl, List.forall₂_map_right_iff.mp hus⟩
    | _ => simp [transformTensorsInIValue] at hv
  | scalarList l =>
    cases v with
    | scalarList l' => exact congrArg IValue.scalarList (IValue.scalarList.inj h)
    | _ => simp [transformTensorsInIValue, Related] at h
  | list elem_type elems ih =>
    obtain ⟨vs, hv, hvs⟩ := h
    cases v with
    | list elem_type' elems' =>
      rw [transformTensorsInIValue, transformAll_eq, IValue.list.injEq] at hv
      obtain ⟨rfl, rfl⟩ := hv
      exact ⟨elems', rfl, helems ih hvs⟩
    | _ => simp [transformTensorsInIValue] at hv
  | tuple elems ih =>
    obtain ⟨vs, hv, hvs⟩ := h
    cases v with
    | tuple elems' =>
      rw [transformTensorsInIValue, transformAll_eq, IValue.tuple.injEq] at hv
      obtain rfl := hv
      exact ⟨elems', rfl, helems ih hvs⟩
    | _ => simp [transformTensorsInIValue] at hv
  | scalar x =>
    cases v with
    | scalar x' => exact congrArg IValue.scalar (IValue.scalar.inj h)
    | _ => simp [transformTensorsInIValue, Related] at h

theorem related_of_transform_eq {V' : IValue U} {f : T → T'} {g : U → T'}
    (h : V.transformTensorsInIValue f = V'.transformTensorsInIValue g) :
    V.Related (fun t u => f t = g u) V' := by
  have hself : V.Related (fun t x => f t = x) (V.transformTensorsInIValue f) :=
    related_transform_self fun t _ => rfl
  rw [h] at hself
  exact hself.of_transform_right

theorem transform_transform {f : T → U} {g : U → T'} (V : IValue T) :
    (V.transformTensorsInIValue f).transformTensorsInIValue g =
      V.transformTensorsInIValue fun t => g (f t) := by
  have hboth : (V.transformTensorsInIValue f).Related (fun u x => x = g u)
      ((V.transformTensorsInIValue f).transformTensorsInIValue g) :=
    related_transform_self fun t _ => rfl
  exact (related_transform_left.mp hboth).eq_transform

theorem mem_tensors_transform {f : T → U} {u : U} :
    u ∈ (V.transformTensorsInIValue f).tensors ↔ ∃ t ∈ V.tensors, f t = u := by
  have helems {elems : List (IValue T)}
      (ih : ∀ e ∈ elems, u ∈ (e.transformTensorsInIValue f).tensors ↔ ∃ t ∈ e.tensors, f t = u) :
      u ∈ (elems.map (transformTensorsInIValue f)).flatMap tensors ↔
        ∃ t ∈ elems.flatMap tensors, f t = u := by
    simp only [List.mem_flatMap, List.mem_map, exists_exists_and_eq_and]
    constructor
    · rintro ⟨e, he, hu⟩
      obtain ⟨t, ht, rfl⟩ := (ih e he).mp hu
      exact ⟨t, ⟨e, he, ht⟩, rfl⟩
    · rintro ⟨t, ⟨e, he, ht⟩, rfl⟩
      exact ⟨e, he, (ih e he).mpr ⟨t, ht, rfl⟩⟩
  induction V using IValue.induction with
  | tensor t => simp [transformTensorsInIValue, tensors, eq_comm]
  | tensorList ts => simp [transformTensorsInIValue, tensors]
  | scalarList l => simp [transformTensorsInIValue, tensors]
  | list elem_type elems ih =>
    rw [transformTensorsInIValue, transformAll_eq, tensors, tensors, tensorsAll_eq, tensorsAll_eq]
    exact helems ih
  | tuple elems ih =>
    rw [transformTensorsInIValue, transformAll_eq, tensors, tensors, tensorsAll_eq, tensorsAll_eq]
    exact helems ih
  | scalar x => simp [transformTensorsInIValue, tensors]

theorem transform_eq_of_related {V' : IValue U} {f : T → T'} {g : U → T'}
    (h : V.Related (fun t u => f t = g u) V') :
    V.transformTensorsInIValue f = V'.transformTensorsInIValue g := by
  refine Related.eq_transform ?_
  have hleft := (related_transform_left (R := fun x u => x = g u)).mpr h
  exact hleft.flip.imp fun u x hx => hx

theorem Related.toTensor (h : V.Related R v) : Option.Rel R V.toTensor v.toTensor := by
  cases V with
  | tensor t =>
    obtain ⟨u, rfl, hu⟩ := h
    exact .some hu
  | tensorList ts =>
    obtain ⟨us, rfl, -⟩ := h
    exact .none
  | scalarList l =>
    obtain rfl : v = .scalarList l := h
    exact .none
  | list elem_type elems =>
    obtain ⟨vs, rfl, -⟩ := h
    exact .none
  | tuple elems =>
    obtain ⟨vs, rfl, -⟩ := h
    exact .none
  | scalar x =>
    obtain rfl : v = .scalar x := h
    exact .none

theorem Related.toTensorVector (h : V.Related R v) :
    Option.Rel (List.Forall₂ R) V.toTensorVector v.toTensorVector := by
  cases V with
  | tensor t =>
    obtain ⟨u, rfl, -⟩ := h
    exact .none
  | tensorList ts =>
    obtain ⟨us, rfl, hus⟩ := h
    exact .some hus
  | scalarList l =>
    obtain rfl : v = .scalarList l := h
    exact .none
  | list elem_type elems =>
    obtain ⟨vs, rfl, -⟩ := h
    exact .none
  | tuple elems =>
    obtain ⟨vs, rfl, -⟩ := h
    exact .none
  | scalar x =>
    obtain rfl : v = .scalar x := h
    exact .none

theorem Related.toListRef (h : V.Related R v) :
    Option.Rel (List.Forall₂ (Related R)) V.toListRef v.toListRef := by
  cases V with
  | tensor t =>
    obtain ⟨u, rfl, -⟩ := h
    exact .none
  | tensorList ts =>
    obtain ⟨us, rfl, hus⟩ := h
    refine .some ?_
    rw [List.forall₂_map_left_iff, List.forall₂_map_right_iff]
    exact hus.imp fun t u htu => ⟨u, rfl, htu⟩
  | scalarList l =>
    obtain rfl : v = .scalarList l := h
    refine .some ?_
    rw [List.forall₂_map_left_iff, List.forall₂_map_right_iff]
    exact List.forall₂_same.mpr fun x _ => rfl
  | list elem_type elems =>
    obtain ⟨vs, rfl, hvs⟩ := h
    exact .some ((relatedAll_iff R).mp hvs)
  | tuple elems =>
    obtain ⟨vs, rfl, -⟩ := h
    exact .none
  | scalar x =>
    obtain rfl : v = .scalar x := h
    exact .none

theorem Related.toTuple (h : V.Related R v) :
    Option.Rel (List.Forall₂ (Related R)) V.toTuple v.toTuple := by
  cases V with
  | tensor t =>
    obtain ⟨u, rfl, -⟩ := h
    exact .none
  | tensorList ts =>
    obtain ⟨us, rfl, -⟩ := h
    exact .none
  | scalarList l =>
    obtain rfl : v = .scalarList l := h
    exact .none
  | list elem_type elems =>
    obtain ⟨vs, rfl, -⟩ := h
    exact .none
  | tuple elems =>
    obtain ⟨vs, rfl, hvs⟩ := h
    exact .some ((relatedAll_iff R).mp hvs)
  | scalar x =>
    obtain rfl : v = .scalar x := h
    exact .none

section Aggregate

variable {f : List T → Option T} {g : List U → Option U}
  (hfg : ∀ ts us, List.Forall₂ R ts us → Option.Rel R (f ts) (g us))

include hfg

theorem aggregateTensors_related {ts : List T} {us : List U} (h : List.Forall₂ R ts us) (i : ℕ)
    {others : List (List T)} {others' : List (List U)}
    (hothers : List.Forall₂ (List.Forall₂ R) others others') :
    Option.Rel (List.Forall₂ R) (aggregateTensors f ts i others)
      (aggregateTensors g us i others') := by
  induction h generalizing i with
  | nil => exact .some .nil
  | cons htu _ ih =>
    unfold aggregateTensors
    refine optionRel_bind (optionRel_mapM hothers fun l l' hl => optionRel_getElem? hl i) ?_
    intro tensors tensors' htensors
    refine optionRel_bind (hfg _ _ (.cons htu htensors)) fun t u hconcat => ?_
    exact optionRel_bind (ih (i + 1)) fun ts us hrest => .some (.cons hconcat hrest)

omit hfg in
theorem aggregateAll_related {elems : List (IValue T)} {elems' : List (IValue U)}
    (h : List.Forall₂ (Related R) elems elems')
    (haggr : ∀ e ∈ elems, ∀ v others others', e.Related R v →
      List.Forall₂ (Related R) others others' →
      Option.Rel (Related R) (aggregate f e others) (aggregate g v others')) (i : ℕ)
    {others : List (List (IValue T))} {others' : List (List (IValue U))}
    (hothers : List.Forall₂ (List.Forall₂ (Related R)) others others') :
    Option.Rel (List.Forall₂ (Related R)) (aggregateAll f elems i others)
      (aggregateAll g elems' i others') := by
  induction h generalizing i with
  | nil => exact .some .nil
  | cons hev _ ih =>
    rw [aggregateAll, aggregateAll]
    refine optionRel_bind (optionRel_mapM hothers fun l l' hl => optionRel_getElem? hl i) ?_
    intro elem elem' helem
    refine optionRel_bind (haggr _ (by simp) _ _ _ hev helem) fun e v hresult => ?_
    exact optionRel_bind (ih (fun e he => haggr e (List.mem_cons_of_mem _ he)) (i + 1))
      fun es vs hrest => .some (.cons hresult hrest)

theorem aggregate_related {others : List (IValue T)} {others' : List (IValue U)}
    (h : V.Related R v) (hothers : List.Forall₂ (Related R) others others') :
    Option.Rel (Related R) (aggregate f V others) (aggregate g v others') := by
  induction V using IValue.induction generalizing v others others' with
  | tensor t =>
    obtain ⟨u, rfl, hu⟩ := h
    rw [aggregate, aggregate]
    refine optionRel_bind (optionRel_mapM hothers fun _ _ hv => hv.toTensor) fun ts us htus => ?_
    exact optionRel_bind (hfg _ _ (.cons hu htus)) fun t u htu => .some ⟨u, rfl, htu⟩
  | tensorList ts =>
    obtain ⟨us, rfl, hus⟩ := h
    rw [aggregate, aggregate]
    refine optionRel_bind (optionRel_mapM hothers fun _ _ hv => hv.toTensorVector) ?_
    intro others others' hothers
    exact optionRel_bind (aggregateTensors_related hfg hus 0 hothers) fun ts us htus =>
      .some ⟨us, rfl, htus⟩
  | scalarList l =>
    obtain rfl : v = .scalarList l := h
    rw [aggregate, aggregate]
    refine optionRel_bind (optionRel_mapM hothers fun _ _ hv => hv.toListRef) ?_
    intro lists lists' hlists
    have hlong : (∀ elems ∈ lists, l.elems.length ≤ elems.length) ↔
        ∀ elems ∈ lists', l.elems.length ≤ elems.length := by
      induction hlists with
      | nil => simp
      | cons hl _ ih => simp only [List.forall_mem_cons, ih, hl.length_eq]
    unfold guard
    simp only [hlong]
    split_ifs
    · exact .some rfl
    · exact .none
  | list elem_type elems ih =>
    obtain ⟨vs, rfl, hvs⟩ := h
    rw [aggregate, aggregate]
    refine optionRel_bind (optionRel_mapM hothers fun _ _ hv => hv.toListRef) ?_
    intro others others' hothers
    exact optionRel_bind (aggregateAll_related ((relatedAll_iff R).mp hvs)
      (fun e he v others others' => ih e he) 0 hothers) fun es vs hes =>
        .some ⟨vs, rfl, (relatedAll_iff R).mpr hes⟩
  | tuple elems ih =>
    obtain ⟨vs, rfl, hvs⟩ := h
    rw [aggregate, aggregate]
    refine optionRel_bind (optionRel_mapM hothers fun _ _ hv => hv.toTuple) ?_
    intro others others' hothers
    exact optionRel_bind (aggregateAll_related ((relatedAll_iff R).mp hvs)
      (fun e he v others others' => ih e he) 0 hothers) fun es vs hes =>
        .some ⟨vs, rfl, (relatedAll_iff R).mpr hes⟩
  | scalar x =>
    obtain rfl : v = .scalar x := h
    exact .some rfl

theorem aggregateTensorsInIValues_related {Vs : List (IValue T)} {vs : List (IValue U)}
    (h : List.Forall₂ (Related R) Vs vs) :
    Option.Rel (Related R) (aggregateTensorsInIValues f Vs) (aggregateTensorsInIValues g vs) := by
  cases h with
  | nil => exact .none
  | cons hv hothers => exact aggregate_related hfg hv hothers

end Aggregate

end Rannc.IValue
