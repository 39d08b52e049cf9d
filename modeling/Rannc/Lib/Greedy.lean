import Mathlib.Algebra.BigOperators.Group.List.Basic
import Mathlib.Tactic

/-!
# Greedy blocks of a sequence

A size grows along a sequence. When it exceeds a limit it starts anew and a block is due, which
opens at the next element that can open one; each such element opens one block at most.
-/
namespace Rannc.Greedy

variable {α : Type*} (grow : ℕ → α → ℕ) (opens : α → Bool) (limit : ℕ)

/-- The size since the last excess, how many blocks are due and how many were opened. -/
structure Blocks where
  size : ℕ := 0
  due : ℕ := 0
  opened : ℕ := 0

def step (b : Blocks) (a : α) : Blocks :=
  if opens a then
    if b.due = 0 then b else { b with due := b.due - 1, opened := b.opened + 1 }
  else if limit < grow b.size a then { b with size := 0, due := b.due + 1 }
  else { b with size := grow b.size a }

def blocks (xs : List α) : Blocks := xs.foldl (step grow opens limit) {}

variable {grow opens limit} {a : α} {b : Blocks}

section Step

theorem step_of_opens (ha : opens a = true) (hdue : 0 < b.due) :
    step grow opens limit b a = { b with due := b.due - 1, opened := b.opened + 1 } := by
  unfold step
  rw [if_pos ha, if_neg hdue.ne']

theorem step_of_idle (ha : opens a = true) (hdue : b.due = 0) :
    step grow opens limit b a = b := by
  unfold step
  rw [if_pos ha, if_pos hdue]

theorem step_of_exceeds (ha : opens a = false) (hsize : limit < grow b.size a) :
    step grow opens limit b a = { b with size := 0, due := b.due + 1 } := by
  unfold step
  rw [if_neg (by simp [ha]), if_pos hsize]

theorem step_of_fits (ha : opens a = false) (hsize : grow b.size a ≤ limit) :
    step grow opens limit b a = { b with size := grow b.size a } := by
  unfold step
  rw [if_neg (by simp [ha]), if_neg (Nat.not_lt.mpr hsize)]

theorem step_cases (grow : ℕ → α → ℕ) (opens : α → Bool) (limit : ℕ) (b : Blocks) (a : α) :
    (opens a = true ∧ 0 < b.due ∧ step grow opens limit b a =
      { b with due := b.due - 1, opened := b.opened + 1 }) ∨
    (opens a = true ∧ b.due = 0 ∧ step grow opens limit b a = b) ∨
    (opens a = false ∧ limit < grow b.size a ∧ step grow opens limit b a =
      { b with size := 0, due := b.due + 1 }) ∨
    (opens a = false ∧ grow b.size a ≤ limit ∧ step grow opens limit b a =
      { b with size := grow b.size a }) := by
  cases ha : opens a with
  | true =>
    rcases Nat.eq_zero_or_pos b.due with hdue | hdue
    · exact Or.inr (Or.inl ⟨rfl, hdue, step_of_idle ha hdue⟩)
    · exact Or.inl ⟨rfl, hdue, step_of_opens ha hdue⟩
  | false =>
    rcases Nat.lt_or_ge limit (grow b.size a) with hsize | hsize
    · exact Or.inr (Or.inr (Or.inl ⟨rfl, hsize, step_of_exceeds ha hsize⟩))
    · exact Or.inr (Or.inr (Or.inr ⟨rfl, hsize, step_of_fits ha hsize⟩))

theorem opened_step (b : Blocks) (a : α) : (step grow opens limit b a).opened =
    if opens a = true ∧ 0 < b.due then b.opened + 1 else b.opened := by
  rcases step_cases grow opens limit b a with
    ⟨ha, hdue, heq⟩ | ⟨ha, hdue, heq⟩ | ⟨ha, -, heq⟩ | ⟨ha, -, heq⟩
  · simp [heq, ha, hdue]
  · simp [heq, hdue]
  · simp [heq, ha]
  · simp [heq, ha]

end Step

theorem blocks_concat (xs : List α) (a : α) : blocks grow opens limit (xs ++ [a]) =
    step grow opens limit (blocks grow opens limit xs) a := by
  simp [blocks]

theorem size_blocks_le (xs : List α) : (blocks grow opens limit xs).size ≤ limit := by
  induction xs using List.reverseRecOn with
  | nil => exact Nat.zero_le _
  | append_singleton xs a ih =>
    rw [blocks_concat]
    rcases step_cases grow opens limit (blocks grow opens limit xs) a with
      ⟨-, -, heq⟩ | ⟨-, -, heq⟩ | ⟨-, -, heq⟩ | ⟨-, hsize, heq⟩ <;> rw [heq]
    · exact ih
    · exact ih
    · exact Nat.zero_le _
    · exact hsize

theorem opened_concat (xs : List α) (a : α) :
    (blocks grow opens limit (xs ++ [a])).opened =
      if opens a = true ∧ 0 < (blocks grow opens limit xs).due then
        (blocks grow opens limit xs).opened + 1
      else (blocks grow opens limit xs).opened := by
  rw [blocks_concat, opened_step]

theorem opened_le_append (xs ys : List α) :
    (blocks grow opens limit xs).opened ≤ (blocks grow opens limit (xs ++ ys)).opened := by
  induction ys using List.reverseRecOn with
  | nil => rw [List.append_nil]
  | append_singleton ys a ih =>
    rw [← List.append_assoc, opened_concat]
    split_ifs
    · exact ih.trans (Nat.le_succ _)
    · exact ih

theorem opened_append_of_quiet (xs : List α) {ys : List α}
    (hquiet : ∀ ys₁ a ys₂, ys = ys₁ ++ a :: ys₂ → opens a = true →
      (blocks grow opens limit (xs ++ ys₁)).due = 0) :
    (blocks grow opens limit (xs ++ ys)).opened = (blocks grow opens limit xs).opened := by
  induction ys using List.reverseRecOn with
  | nil => rw [List.append_nil]
  | append_singleton ys a ih =>
    have hlast := hquiet ys a [] rfl
    rw [← List.append_assoc, opened_concat, if_neg]
    · refine ih fun ys₁ a' ys₂ heq => hquiet ys₁ a' (ys₂ ++ [a]) ?_
      rw [heq, List.append_assoc, List.cons_append]
    · rintro ⟨ha, hdue⟩
      exact hdue.ne' (hlast ha)

theorem exists_opened_eq {xs : List α} (hne : xs ≠ []) {k : ℕ}
    (hk : k ≤ (blocks grow opens limit xs).opened) : ∃ before a after,
      xs = before ++ a :: after ∧ (blocks grow opens limit (before ++ [a])).opened = k := by
  induction xs using List.reverseRecOn with
  | nil => exact absurd rfl hne
  | append_singleton xs a ih =>
    rcases Nat.eq_or_lt_of_le hk with heq | hlt
    · exact ⟨xs, a, [], rfl, heq.symm⟩
    · have hstep : (blocks grow opens limit (xs ++ [a])).opened = _ := opened_concat xs a
      rcases xs.eq_nil_or_concat with rfl | ⟨_, _, hcons⟩
      · rw [if_neg (by simp [blocks])] at hstep
        rw [hstep] at hlt
        exact absurd hlt (Nat.not_lt_zero k)
      · have hle : k ≤ (blocks grow opens limit xs).opened := by
          split_ifs at hstep <;> omega
        obtain ⟨before, a', after, hxs, hopened⟩ := ih (by simp [hcons]) hle
        exact ⟨before, a', after ++ [a], by simp [hxs], hopened⟩

section Cost

variable {size : α → ℕ} (hgrow : ∀ s a, grow s a ≤ s + size a)
include hgrow

theorem cost_blocks_le (xs : List α) :
    ((blocks grow opens limit xs).opened + (blocks grow opens limit xs).due) * (limit + 1) +
      (blocks grow opens limit xs).size ≤ (xs.map size).sum := by
  induction xs using List.reverseRecOn with
  | nil => simp [blocks]
  | append_singleton xs a ih =>
    rw [blocks_concat, List.map_append, List.sum_append, List.map_singleton, List.sum_singleton]
    set b := blocks grow opens limit xs
    have hgrown := hgrow b.size a
    rcases step_cases grow opens limit b a with
      ⟨-, hdue, heq⟩ | ⟨-, -, heq⟩ | ⟨-, hsize, heq⟩ | ⟨-, -, heq⟩ <;> rw [heq]
    · dsimp only
      have hsame : b.opened + 1 + (b.due - 1) = b.opened + b.due := by omega
      rw [hsame]
      omega
    · omega
    · dsimp only
      rw [← Nat.add_assoc, Nat.add_one_mul]
      omega
    · dsimp only
      omega

theorem opened_lt {n : ℕ} (hn : 0 < n) {total : ℕ} {xs : List α} (hsum : (xs.map size).sum ≤ total)
    (hlimit : limit = total / n) : (blocks grow opens limit xs).opened < n := by
  have hcost : ((blocks grow opens limit xs).opened + _) * (limit + 1) + _ ≤ _ :=
    cost_blocks_le hgrow xs
  have hle : (blocks grow opens limit xs).opened * (limit + 1) ≤ total := by
    rw [Nat.add_mul] at hcost
    omega
  have hlt : total < n * (limit + 1) := by
    rw [hlimit]
    exact Nat.lt_mul_div_succ total hn
  exact Nat.lt_of_mul_lt_mul_right (hle.trans_lt hlt)

end Cost

end Rannc.Greedy
