import Mathlib.Tactic

/-!
# Programs that keep a log

A program is a function that may fail. `Runs` says of one that from every state of a precondition
it succeeds, ends in a state of a postcondition and appends given entries to the log. The rules
follow the ways programs are put together.
-/
namespace Rannc.Traced

variable {σ ε α : Type*} (log : σ → List ε)

/-- From `I` the program succeeds, ends in `J` and logs `out`. -/
def Runs (I J : σ → Prop) (program : σ → Option σ) (out : List ε) : Prop :=
  ∀ s, I s → ∃ s', program s = some s' ∧ J s' ∧ log s' = log s ++ out

variable {log} {I J K : σ → Prop} {f g : σ → Option σ} {out out' : List ε}

theorem Runs.weaken {I' J' : σ → Prop} (hf : Runs log I J f out) (hI : ∀ s, I' s → I s)
    (hJ : ∀ s, J s → J' s) : Runs log I' J' f out := by
  intro s hs
  obtain ⟨s', hs', hJs', hlog⟩ := hf s (hI s hs)
  exact ⟨s', hs', hJ s' hJs', hlog⟩

theorem Runs.skip : Runs log I I some [] :=
  fun s hs => ⟨s, rfl, hs, (List.append_nil _).symm⟩

theorem Runs.bind (hf : Runs log I J f out) (hg : Runs log J K g out') :
    Runs log I K (fun s => f s >>= g) (out ++ out') := by
  intro s hs
  obtain ⟨s1, hs1, hJ, hlog1⟩ := hf s hs
  obtain ⟨s2, hs2, hK, hlog2⟩ := hg s1 hJ
  refine ⟨s2, ?_, hK, ?_⟩
  · change (f s >>= g) = some s2
    rw [hs1]
    exact hs2
  · rw [hlog2, hlog1, List.append_assoc]

theorem Runs.ite {c : Prop} [Decidable c] (hf : c → Runs log I J f out)
    (hg : ¬c → Runs log I J g out') :
    Runs log I J (fun s => if c then f s else g s) (if c then out else out') := by
  by_cases h : c
  · simpa only [if_pos h] using hf h
  · simpa only [if_neg h] using hg h

/-- The invariant of a loop speaks of the part of the list that has been worked off. -/
theorem Runs.foldlM {I : List α → σ → Prop} {step : σ → α → Option σ} {out : α → List ε}
    (xs : List α) (h : ∀ before x after, xs = before ++ x :: after →
      Runs log (I before) (I (before ++ [x])) (fun s => step s x) (out x)) :
    Runs log (I []) (I xs) (fun s => xs.foldlM step s) (xs.flatMap out) := by
  have hrun : ∀ rest before, xs = before ++ rest →
      Runs log (I before) (I xs) (fun s => rest.foldlM step s) (rest.flatMap out) := by
    intro rest
    induction rest with
    | nil =>
      intro before hxs
      rw [List.append_nil] at hxs
      subst hxs
      exact Runs.skip
    | cons x rest ih =>
      intro before hxs
      refine (h before x rest hxs).bind (ih (before ++ [x]) ?_)
      rw [hxs, List.append_assoc, List.singleton_append]
  exact hrun xs [] rfl

theorem Runs.foldlM_const {step : σ → α → Option σ} {out : α → List ε} (xs : List α)
    (h : ∀ x ∈ xs, Runs log I I (fun s => step s x) (out x)) :
    Runs log I I (fun s => xs.foldlM step s) (xs.flatMap out) := by
  refine Runs.foldlM (I := fun _ => I) xs fun before x after hxs => h x ?_
  rw [hxs]
  exact List.mem_append_right _ List.mem_cons_self

end Rannc.Traced
