import Mathlib.Data.List.Basic

/-!
# Loops that may fail

What holds of the result of a loop with an early exit, from what one turn of it does.
-/
namespace Rannc

variable {α β : Type}

theorem of_guard_bind {p : Prop} [Decidable p] {f : Unit → Option β} {b : β}
    (h : (guard p : Option Unit).bind f = some b) : p ∧ f () = some b := by
  by_cases hp : p
  · rw [guard, if_pos hp] at h
    exact ⟨hp, h⟩
  · rw [guard, if_neg hp] at h
    cases h

theorem foldlM_invariant {f : β → α → Option β} {P : β → Prop} {l : List α}
    (hstep : ∀ b a b', a ∈ l → P b → f b a = some b' → P b') {b b' : β} (hb : P b)
    (h : l.foldlM f b = some b') : P b' := by
  induction l generalizing b with
  | nil =>
    obtain rfl := Option.some.inj h
    exact hb
  | cons a l ih =>
    rw [List.foldlM_cons] at h
    obtain ⟨b₁, hb₁, hrest⟩ := Option.bind_eq_some_iff.mp h
    exact ih (fun b a b' ha => hstep b a b' (List.mem_cons_of_mem _ ha))
      (hstep b a b₁ List.mem_cons_self hb hb₁) hrest

/-- An invariant that speaks of the part of the list that has been worked off. -/
theorem foldlM_prefix {f : β → α → Option β} {I : List α → β → Prop} {l : List α}
    (hstep : ∀ before a after b b', l = before ++ a :: after → I before b → f b a = some b' →
      I (before ++ [a]) b') {b b' : β} (hb : I [] b) (h : l.foldlM f b = some b') : I l b' := by
  have hrun : ∀ (rest before : List α) (b : β), l = before ++ rest → I before b →
      rest.foldlM f b = some b' → I l b' := by
    intro rest
    induction rest with
    | nil =>
      intro before b hl hb h
      obtain rfl := Option.some.inj h
      rwa [hl, List.append_nil]
    | cons a rest ih =>
      intro before b hl hb h
      rw [List.foldlM_cons] at h
      obtain ⟨b₁, hb₁, hrest⟩ := Option.bind_eq_some_iff.mp h
      exact ih (before ++ [a]) b₁ (by rw [hl, List.append_assoc, List.singleton_append])
        (hstep before a rest b b₁ hl hb hb₁) hrest
  exact hrun l [] b rfl hb h

/-- A loop with a `break`: every turn says whether it is the last. -/
def foldUntilM (f : β → α → Option (β × Bool)) : β → List α → Option β
  | b, [] => some b
  | b, a :: l => do
    let (b, stop) ← f b a
    if stop then return b else foldUntilM f b l

/-- A property that every turn keeps holds in the end, wherever the loop stops. -/
theorem foldUntilM_invariant {f : β → α → Option (β × Bool)} {P : β → Prop} {l : List α}
    (hstep : ∀ b a b' stop, a ∈ l → P b → f b a = some (b', stop) → P b') {b b' : β} (hb : P b)
    (h : foldUntilM f b l = some b') : P b' := by
  induction l generalizing b with
  | nil =>
    obtain rfl := Option.some.inj h
    exact hb
  | cons a l ih =>
    obtain ⟨⟨b₁, stop⟩, hturn, hrest⟩ := Option.bind_eq_some_iff.mp h
    have hb₁ : P b₁ := hstep b a b₁ stop List.mem_cons_self hb hturn
    cases stop with
    | true =>
      obtain rfl := Option.some.inj hrest
      exact hb₁
    | false =>
      exact ih (fun b a b' stop ha => hstep b a b' stop (List.mem_cons_of_mem _ ha)) hb₁ hrest

theorem foldlM_some (f : β → α → β) (l : List α) (b : β) :
    l.foldlM (fun b a => some (f b a)) b = some (l.foldl f b) :=
  List.foldlM_pure

theorem foldlM_isSome {f : β → α → Option β} {l : List α}
    (hturn : ∀ b, ∀ a ∈ l, (f b a).isSome) (b : β) : (l.foldlM f b).isSome := by
  induction l generalizing b with
  | nil => rfl
  | cons a l ih =>
    obtain ⟨b', hb'⟩ := Option.isSome_iff_exists.mp (hturn b a List.mem_cons_self)
    rw [List.foldlM_cons, hb']
    exact ih (fun b a ha => hturn b a (List.mem_cons_of_mem _ ha)) b'

theorem foldUntilM_isSome {f : β → α → Option (β × Bool)} {l : List α}
    (hturn : ∀ b, ∀ a ∈ l, (f b a).isSome) (b : β) : (foldUntilM f b l).isSome := by
  induction l generalizing b with
  | nil => rfl
  | cons a l ih =>
    obtain ⟨⟨b', stop⟩, hb'⟩ := Option.isSome_iff_exists.mp (hturn b a List.mem_cons_self)
    simp only [foldUntilM, Option.bind_eq_bind]
    rw [hb', Option.bind_some]
    cases stop with
    | true => rfl
    | false => exact ih (fun b a ha => hturn b a (List.mem_cons_of_mem _ ha)) b'

theorem foldlM_forget {γ : Type} {f : β → α → Option β} {g : γ → α → Option γ} (forget : γ → β)
    (hturn : ∀ c a, (g c a).map forget = f (forget c) a) (c : γ) (l : List α) :
    (l.foldlM g c).map forget = l.foldlM f (forget c) := by
  induction l generalizing c with
  | nil => rfl
  | cons a l ih =>
    rw [List.foldlM_cons, List.foldlM_cons, ← hturn c a]
    cases g c a with
    | none => rfl
    | some c' => exact ih c'

theorem foldUntilM_forget {γ : Type} {f : β → α → Option (β × Bool)}
    {g : γ → α → Option (γ × Bool)} (forget : γ → β)
    (hturn : ∀ c a, (g c a).map (Prod.map forget id) = f (forget c) a) (c : γ) (l : List α) :
    (foldUntilM g c l).map forget = foldUntilM f (forget c) l := by
  induction l generalizing c with
  | nil => rfl
  | cons a l ih =>
    simp only [foldUntilM, Option.bind_eq_bind]
    rw [← hturn c a]
    cases g c a with
    | none => rfl
    | some turn =>
      obtain ⟨c', stop⟩ := turn
      cases stop with
      | true => rfl
      | false => exact ih c'

theorem mapM_eq_some_iff {f : α → Option β} {l : List α} {l' : List β} :
    l.mapM f = some l' ↔ l.map f = l'.map some := by
  induction l generalizing l' with
  | nil => cases l' <;> simp
  | cons a l ih =>
    rw [List.mapM_cons, List.map_cons]
    cases hfa : f a with
    | none => cases l' <;> simp
    | some b =>
      cases l' with
      | nil => cases hl : l.mapM f <;> simp
      | cons b' l' =>
        rw [List.map_cons, List.cons.injEq, Option.some.injEq, ← ih]
        cases hl : l.mapM f <;> simp

theorem filterMap_of_mapM {f : α → Option β} {l : List α} {l' : List β} (h : l.mapM f = some l') :
    l.filterMap f = l' := by
  have hmap := mapM_eq_some_iff.mp h
  calc l.filterMap f = (l.map f).filterMap id := by rw [List.filterMap_map, Function.id_comp]
    _ = l' := by rw [hmap, List.filterMap_map, Function.id_comp, List.filterMap_some]

theorem mapM_map {γ : Type} (f : α → Option β) (g : β → γ) (l : List α) :
    (l.mapM fun a => (f a).map g) = (l.mapM f).map (List.map g) := by
  induction l with
  | nil => rfl
  | cons a l ih =>
    rw [List.mapM_cons, List.mapM_cons, ih]
    cases f a with
    | none => rfl
    | some b => cases l.mapM f <;> rfl

theorem mapM_congr {f g : α → Option β} {l : List α} (h : ∀ a ∈ l, f a = g a) :
    l.mapM f = l.mapM g := by
  apply Option.ext
  intro l'
  rw [mapM_eq_some_iff, mapM_eq_some_iff, List.map_congr_left h]

theorem mem_of_mapM {f : α → Option β} {l : List α} {l' : List β} (h : l.mapM f = some l') {a : α}
    {b : β} (ha : a ∈ l) (hb : f a = some b) : b ∈ l' := by
  have hmem : f a ∈ l'.map some := mapM_eq_some_iff.mp h ▸ List.mem_map_of_mem ha
  rw [hb] at hmem
  simpa using hmem

theorem exists_of_mem_mapM {f : α → Option β} {l : List α} {l' : List β}
    (h : l.mapM f = some l') {b : β} (hb : b ∈ l') : ∃ a ∈ l, f a = some b := by
  have hmem : some b ∈ l.map f := mapM_eq_some_iff.mp h ▸ List.mem_map_of_mem hb
  exact List.mem_map.mp hmem

theorem map_of_mapM {f : α → Option β} {g : β → α} (hg : ∀ a b, f a = some b → g b = a) {l : List α}
    {l' : List β} (h : l.mapM f = some l') : l'.map g = l := by
  rw [mapM_eq_some_iff] at h
  induction l generalizing l' with
  | nil => simpa using h
  | cons a l ih =>
    cases l' with
    | nil => simp at h
    | cons b l' =>
      obtain ⟨hb, hrest⟩ := List.cons.inj h
      rw [List.map_cons, hg a b hb, ih hrest]

theorem mapM_of_forall_some {f : α → Option β} {l : List α} (h : ∀ a ∈ l, (f a).isSome) :
    ∃ l', l.mapM f = some l' := by
  induction l with
  | nil => exact ⟨[], rfl⟩
  | cons a l ih =>
    obtain ⟨b, hb⟩ := Option.isSome_iff_exists.mp (h a List.mem_cons_self)
    obtain ⟨l', hl'⟩ := ih fun a ha => h a (List.mem_cons_of_mem _ ha)
    refine ⟨b :: l', ?_⟩
    rw [List.mapM_cons, hb, hl']
    rfl

theorem isSome_of_mapM {f : α → Option β} {l : List α} {l' : List β} (h : l.mapM f = some l')
    {a : α} (ha : a ∈ l) : (f a).isSome := by
  have hmem := List.mem_map_of_mem (f := f) ha
  rw [mapM_eq_some_iff.mp h] at hmem
  obtain ⟨b, -, hb⟩ := List.mem_map.mp hmem
  rw [← hb]
  rfl

theorem mem_of_filterM {f : α → Option Bool} {l l' : List α} (h : l.filterM f = some l') {a : α}
    (ha : a ∈ l') : a ∈ l ∧ f a = some true := by
  have haux : ∀ (l acc res : List α), List.filterAuxM f l acc = some res → a ∈ res →
      a ∈ acc ∨ a ∈ l ∧ f a = some true := by
    intro l
    induction l with
    | nil =>
      intro acc res hres ha
      obtain rfl := Option.some.inj hres
      exact Or.inl ha
    | cons b l ih =>
      intro acc res hres ha
      obtain ⟨keep, hb, hrest⟩ := Option.bind_eq_some_iff.mp hres
      cases ih _ res hrest ha with
      | inl hacc =>
        cases keep with
        | false => exact Or.inl hacc
        | true =>
          cases List.mem_cons.mp hacc with
          | inl heq => exact Or.inr ⟨heq ▸ List.mem_cons_self, heq ▸ hb⟩
          | inr hacc => exact Or.inl hacc
      | inr hl => exact Or.inr ⟨List.mem_cons_of_mem _ hl.1, hl.2⟩
  obtain ⟨res, hres, hl'⟩ := Option.bind_eq_some_iff.mp h
  obtain rfl := Option.some.inj hl'
  exact (haux l [] res hres (List.mem_reverse.mp ha)).resolve_left List.not_mem_nil

/-- A filter whose tests all succeed. -/
theorem filterM_eq_filter {f : α → Option Bool} {p : α → Bool} {l : List α}
    (h : ∀ a ∈ l, f a = some (p a)) : l.filterM f = some (l.filter p) := by
  have haux : ∀ (l acc : List α), (∀ a ∈ l, f a = some (p a)) →
      List.filterAuxM f l acc = some ((l.filter p).reverse ++ acc) := by
    intro l
    induction l with
    | nil => exact fun acc _ => rfl
    | cons a l ih =>
      intro acc h
      unfold List.filterAuxM
      rw [h a List.mem_cons_self]
      refine (ih _ fun b hb => h b (List.mem_cons_of_mem _ hb)).trans ?_
      cases hp : p a with
      | true => simp [hp]
      | false => simp [hp]
  unfold List.filterM
  rw [haux l [] h]
  simp

end Rannc
