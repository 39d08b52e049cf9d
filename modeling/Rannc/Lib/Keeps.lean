import Mathlib.Order.Defs.Unbundled
import Mathlib.Tactic.TypeStar

/-!
# What programs that may throw do to the state

A program that throws leaves the state as it is at that point. `Keeps` says that the state before
and the state after a program are related, in whatever way the program ends.
-/
namespace Rannc

universe u

variable {ε σ α β : Type u}

/-- The state in which a program ends. -/
def finalState : EStateM.Result ε σ α → σ
  | .ok _ s => s
  | .error _ s => s

def Keeps (R : σ → σ → Prop) (prog : EStateM ε σ α) : Prop :=
  ∀ s, R s (finalState (prog s))

variable {R : σ → σ → Prop}

theorem Keeps.modify {f : σ → σ} (h : ∀ s, R s (f s)) :
    Keeps R (modify f : EStateM ε σ PUnit) :=
  h

section

variable [Std.Refl R]

theorem Keeps.pure (a : α) : Keeps R (pure a : EStateM ε σ α) :=
  fun s => Std.Refl.refl s

theorem Keeps.throw (e : ε) : Keeps R (throw e : EStateM ε σ α) :=
  fun s => Std.Refl.refl s

theorem Keeps.get : Keeps R (get : EStateM ε σ σ) :=
  fun s => Std.Refl.refl s

end

theorem Keeps.bind [IsTrans σ R] {prog : EStateM ε σ α} {next : α → EStateM ε σ β}
    (hprog : Keeps R prog) (hnext : ∀ a, Keeps R (next a)) : Keeps R (prog >>= next) := by
  intro s
  have hs := hprog s
  change R s (finalState (EStateM.bind prog next s))
  unfold EStateM.bind
  cases hres : prog s with
  | ok a s₁ =>
    rw [hres] at hs
    exact trans_of R hs (hnext a s₁)
  | error e s₁ =>
    rw [hres] at hs
    exact hs

variable [Std.Refl R] [IsTrans σ R]

theorem Keeps.foldlM {step : β → α → EStateM ε σ β} {l : List α}
    (h : ∀ b, ∀ a ∈ l, Keeps R (step b a)) (b : β) : Keeps R (l.foldlM step b) := by
  induction l generalizing b with
  | nil => exact Keeps.pure b
  | cons a l ih =>
    rw [List.foldlM_cons]
    apply (h b a List.mem_cons_self).bind
    intro b'
    exact ih (fun b a ha => h b a (List.mem_cons_of_mem _ ha)) b'

theorem Keeps.forM {body : α → EStateM ε σ PUnit} {l : List α} (h : ∀ a ∈ l, Keeps R (body a)) :
    Keeps R (l.forM body) := by
  induction l with
  | nil => exact Keeps.pure PUnit.unit
  | cons a l ih =>
    apply (h a List.mem_cons_self).bind
    intro _
    exact ih fun a ha => h a (List.mem_cons_of_mem _ ha)

theorem forM_modify {f : α → σ → σ} (l : List α) (s : σ) :
    (l.forM fun a => (modify (f a) : EStateM ε σ PUnit)) s =
      .ok PUnit.unit (l.foldl (fun s a => f a s) s) := by
  induction l generalizing s with
  | nil => rfl
  | cons a l ih => exact ih (f a s)

end Rannc
