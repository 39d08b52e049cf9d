import Mathlib.Data.List.Forall2
import Mathlib.Data.Option.Basic

/-!
# Related results

Computations that may fail, run on related arguments, fail together or yield related results.
-/
namespace Rannc

variable {α β γ δ : Type*} {R : α → β → Prop} {S : γ → δ → Prop}

theorem forall₂_imp_of_mem {Q : α → β → Prop} {l : List α} {l' : List β}
    (h : List.Forall₂ R l l') (hR : ∀ a ∈ l, ∀ b, R a b → Q a b) : List.Forall₂ Q l l' := by
  induction h with
  | nil => exact .nil
  | cons hab _ ih =>
    exact .cons (hR _ (by simp) _ hab) (ih fun a ha => hR a (List.mem_cons_of_mem _ ha))

theorem optionRel_bind {a : Option α} {b : Option β} {f : α → Option γ} {g : β → Option δ}
    (h : Option.Rel R a b) (hfg : ∀ x y, R x y → Option.Rel S (f x) (g y)) :
    Option.Rel S (a.bind f) (b.bind g) := by
  cases h with
  | none => exact .none
  | some hxy => exact hfg _ _ hxy

theorem optionRel_map {a : Option α} {b : Option β} {f : α → γ} {g : β → δ} (h : Option.Rel R a b)
    (hfg : ∀ x y, R x y → S (f x) (g y)) : Option.Rel S (a.map f) (b.map g) := by
  cases h with
  | none => exact .none
  | some hxy => exact .some (hfg _ _ hxy)

theorem optionRel_map_left {α' : Type*} {f : α' → α} {a : Option α'} {b : Option β} :
    Option.Rel R (a.map f) b ↔ Option.Rel (fun x y => R (f x) y) a b := by
  cases a with
  | none =>
    constructor
    · rintro (_ | _)
      exact .none
    · rintro (_ | _)
      exact .none
  | some x =>
    constructor
    · rintro (h | _)
      exact .some h
    · rintro (h | _)
      exact .some h

theorem optionRel_or {a a' : Option α} {b b' : Option β} (h : Option.Rel R a b)
    (h' : Option.Rel R a' b') : Option.Rel R (a.or a') (b.or b') := by
  cases h with
  | none => exact h'
  | some hxy => exact .some hxy

theorem optionRel_isSome {a : Option α} {b : Option β} (h : Option.Rel R a b) :
    a.isSome = b.isSome := by
  cases h with
  | none => rfl
  | some => rfl

theorem optionRel_getElem? {l : List α} {l' : List β} (h : List.Forall₂ R l l') (i : ℕ) :
    Option.Rel R l[i]? l'[i]? := by
  induction h generalizing i with
  | nil => exact .none
  | cons hxy _ ih =>
    cases i with
    | zero => exact .some hxy
    | succ i => exact ih i

theorem optionRel_head? {l : List α} {l' : List β} (h : List.Forall₂ R l l') :
    Option.Rel R l.head? l'.head? := by
  cases h with
  | nil => exact .none
  | cons hxy _ => exact .some hxy

theorem optionRel_mapM {l : List α} {l' : List β} {f : α → Option γ} {g : β → Option δ}
    (h : List.Forall₂ R l l') (hfg : ∀ x y, R x y → Option.Rel S (f x) (g y)) :
    Option.Rel (List.Forall₂ S) (l.mapM f) (l'.mapM g) := by
  induction h with
  | nil => exact .some .nil
  | cons hxy _ ih =>
    rw [List.mapM_cons, List.mapM_cons]
    exact optionRel_bind (hfg _ _ hxy) fun x y hxy =>
      optionRel_bind ih fun xs ys hrest => .some (.cons hxy hrest)

theorem optionRel_foldlM {l : List γ} {l' : List δ} {f : α → γ → Option α} {g : β → δ → Option β}
    (h : List.Forall₂ S l l')
    (hfg : ∀ x y, R x y → ∀ c d, S c d → Option.Rel R (f x c) (g y d)) {x : α} {y : β}
    (hxy : R x y) : Option.Rel R (l.foldlM f x) (l'.foldlM g y) := by
  induction h generalizing x y with
  | nil => exact .some hxy
  | cons hcd _ ih =>
    rw [List.foldlM_cons, List.foldlM_cons]
    exact optionRel_bind (hfg _ _ hxy _ _ hcd) fun x y hxy => ih hxy

/-- A property of the results that is one of the arguments. -/
theorem map_of_mapM_congr {f : α → Option β} {p : β → γ} {q : α → γ}
    (hf : ∀ a b, f a = some b → p b = q a) {l : List α} {l' : List β} (h : l.mapM f = some l') :
    l'.map p = l.map q := by
  induction l generalizing l' with
  | nil =>
    obtain rfl := Option.some.inj h
    rfl
  | cons a l ih =>
    rw [List.mapM_cons] at h
    obtain ⟨b, hb, h⟩ := Option.bind_eq_some_iff.mp h
    obtain ⟨bs, hbs, h⟩ := Option.bind_eq_some_iff.mp h
    obtain rfl := Option.some.inj h
    rw [List.map_cons, List.map_cons, hf a b hb, ih hbs]

theorem lookup_of_mapM [DecidableEq γ] {f : γ × α → Option (γ × β)} {l : List (γ × α)}
    {l' : List (γ × β)} (hf : ∀ it ∈ l, ∀ it', f it = some it' → it'.1 = it.1 ∧ R it.2 it'.2)
    (h : l.mapM f = some l') (key : γ) : Option.Rel R (l.lookup key) (l'.lookup key) := by
  induction l generalizing l' with
  | nil =>
    obtain rfl := Option.some.inj h
    exact Option.Rel.none
  | cons it l ih =>
    rw [List.mapM_cons] at h
    obtain ⟨it', hit, h⟩ := Option.bind_eq_some_iff.mp h
    obtain ⟨its, hits, h⟩ := Option.bind_eq_some_iff.mp h
    obtain rfl := Option.some.inj h
    obtain ⟨hfirst, hrest⟩ := List.forall_mem_cons.mp hf
    obtain ⟨hkey, hrel⟩ := hfirst it' hit
    rw [List.lookup_cons, List.lookup_cons, hkey]
    cases key == it.1 with
    | true => exact Option.Rel.some hrel
    | false => exact ih hrest hits

end Rannc
