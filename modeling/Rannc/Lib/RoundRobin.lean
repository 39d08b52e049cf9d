import Mathlib.Data.Int.CardIntervalMod
import Mathlib.Tactic

/-!
# Dealing a run of indices round robin

Consecutive indices `start, start + 1, …` are handed to `n` slots in turn, index `x` going to
slot `x % n`. `dealt` counts what one slot receives from a finite run. Its closed form is the
usual quotient, plus one for the slots on an arc that starts at `start % n`; two runs of one
length give every slot the same count exactly when their arcs coincide.
-/
namespace Rannc.RoundRobin

/-- How many of the indices `start, …, start + len - 1` fall to slot `j` of `n`. -/
def dealt (n start len j : ℕ) : ℕ := len.count fun x => start + x ≡ j [MOD n]

/-- Position of slot `j` counted from the slot that gets index `start`. -/
def lag (n start j : ℕ) : ℕ := (j + (n - start % n)) % n

variable {n : ℕ}

theorem lag_lt (hn : 0 < n) (start j : ℕ) : lag n start j < n := Nat.mod_lt _ hn

theorem start_add_lag (hn : 0 < n) (start j : ℕ) : start + lag n start j ≡ j [MOD n] := by
  have hs : start % n ≤ n := (Nat.mod_lt start hn).le
  calc start + lag n start j
      ≡ start % n + (j + (n - start % n)) [MOD n] :=
        (Nat.mod_modEq start n).symm.add (Nat.mod_modEq _ n)
    _ = j + n := by omega
    _ ≡ j [MOD n] := by simp [Nat.ModEq]

theorem modEq_lag_iff (hn : 0 < n) (start j x : ℕ) :
    start + x ≡ j [MOD n] ↔ x ≡ lag n start j [MOD n] := by
  constructor
  · intro h
    exact Nat.ModEq.add_left_cancel' start (h.trans (start_add_lag hn start j).symm)
  · intro h
    exact (h.add_left start).trans (start_add_lag hn start j)

theorem eq_lag {start j x : ℕ} (hx : x < n) (h : start + x ≡ j [MOD n]) : x = lag n start j := by
  have hn : 0 < n := by omega
  exact Nat.ModEq.eq_of_lt_of_lt ((modEq_lag_iff hn start j x).1 h) hx (lag_lt hn start j)

theorem dealt_eq (hn : 0 < n) (start len j : ℕ) :
    dealt n start len j = len / n + if lag n start j < len % n then 1 else 0 := by
  have h := Nat.count_modEq_card len hn (lag n start j)
  rw [Nat.mod_eq_of_lt (lag_lt hn start j)] at h
  rw [← h, dealt]
  simp only [modEq_lag_iff hn]

theorem dealt_add (n start a b j : ℕ) :
    dealt n start (a + b) j = dealt n start a j + dealt n (start + a) b j := by
  simp [dealt, Nat.count_add, Nat.add_assoc]

/-- After a run, the lag has advanced by the full turns the slot was dealt. -/
theorem lag_add_dealt (hn : 0 < n) (start len j : ℕ) :
    lag n start j + dealt n start len j * n = len + lag n (start + len) j := by
  have hq := Nat.div_add_mod len n
  have hm := Nat.mod_lt len hn
  have ho := lag_lt hn start j
  have hstart := start_add_lag hn start j
  rw [dealt_eq hn]
  split_ifs with h
  · have hnext : lag n start j + n - len % n = lag n (start + len) j := by
      refine eq_lag (by omega) ?_
      have he : start + len + (lag n start j + n - len % n) =
          start + lag n start j + n * (len / n + 1) := by
        rw [Nat.mul_add]
        omega
      rw [he, Nat.ModEq, Nat.add_mul_mod_self_left]
      exact hstart
    rw [← hnext, Nat.add_mul, Nat.mul_comm (len / n)]
    omega
  · have hnext : lag n start j - len % n = lag n (start + len) j := by
      refine eq_lag (by omega) ?_
      have he : start + len + (lag n start j - len % n) =
          start + lag n start j + n * (len / n) := by omega
      rw [he, Nat.ModEq, Nat.add_mul_mod_self_left]
      exact hstart
    rw [← hnext, Nat.add_zero, Nat.mul_comm (len / n)]
    omega

/-- Every index of a run is dealt to one of the slots. -/
theorem sum_dealt (hn : 0 < n) (start len : ℕ) :
    ((List.range n).map (dealt n start len)).sum = len := by
  change ∑ j ∈ Finset.range n, dealt n start len j = len
  induction len with
  | zero => simp [dealt]
  | succ len ih =>
    have hone : ∑ j ∈ Finset.range n, (if start + len ≡ j [MOD n] then 1 else 0) = 1 := by
      have hslot : ∀ j ∈ Finset.range n, (if start + len ≡ j [MOD n] then 1 else 0) =
          if (start + len) % n = j then 1 else 0 := by
        intro j hj
        simp only [Nat.ModEq, Nat.mod_eq_of_lt (Finset.mem_range.mp hj)]
      rw [Finset.sum_congr rfl hslot, Finset.sum_ite_eq,
        if_pos (Finset.mem_range.mpr (Nat.mod_lt _ hn))]
    simp only [dealt, Nat.count_succ, Finset.sum_add_distrib] at ih ⊢
    rw [ih, hone]

theorem sum_dealt_runs (n len j k : ℕ) :
    ∑ i ∈ Finset.range k, dealt n (i * len) len j = dealt n 0 (k * len) j := by
  induction k with
  | zero => simp [dealt]
  | succ k ih => rw [Finset.sum_range_succ, ih, Nat.succ_mul, dealt_add, Nat.zero_add]

theorem lag_add (start : ℕ) {k : ℕ} (hk : k < n) : lag n start ((start + k) % n) = k :=
  (eq_lag hk (Nat.mod_modEq _ n).symm).symm

theorem lag_congr {s t : ℕ} (h : s ≡ t [MOD n]) (j : ℕ) : lag n s j = lag n t j := by
  unfold lag
  rw [show s % n = t % n from h]

theorem lag_shift (hn : 0 < n) (s t j : ℕ) :
    lag n s j ≡ lag n t j + lag n s t [MOD n] := by
  have h := (modEq_lag_iff hn s j (lag n t j + lag n s t)).1 (by
    calc s + (lag n t j + lag n s t)
        = (s + lag n s t) + lag n t j := by ring
      _ ≡ t + lag n t j [MOD n] := (start_add_lag hn s t).add_right _
      _ ≡ j [MOD n] := start_add_lag hn t j)
  exact h.symm

theorem modEq_of_lag_iff (hn : 0 < n) {s t m : ℕ} (hm : 0 < m) (hmn : m < n)
    (h : ∀ j < n, lag n s j < m ↔ lag n t j < m) : s ≡ t [MOD n] := by
  have hself : lag n t (t % n) = 0 := by simpa using lag_add t hn
  -- the first slot of the second arc lies on the first one, at lag `e`
  have he : lag n s (t % n) < m := (h _ (Nat.mod_lt t hn)).2 (by omega)
  have hshift := lag_shift hn s t
  have hst : lag n s t = lag n s (t % n) := by
    unfold lag
    simp [Nat.add_mod]
  by_contra hne
  have hpos : 0 < lag n s t := by
    refine Nat.pos_of_ne_zero fun h0 => hne ?_
    have := start_add_lag hn s t
    rwa [h0, Nat.add_zero] at this
  -- the slot before it has lag `e - 1` on the first arc and `n - 1` on the second
  obtain ⟨j, hj, hprev⟩ : ∃ j < n, lag n t j = n - 1 :=
    ⟨(t + (n - 1)) % n, Nat.mod_lt _ hn, lag_add t (by omega)⟩
  have hlag : lag n s j = lag n s t - 1 := by
    have h1 := hshift j
    have hlt := lag_lt hn s t
    rw [hprev, show n - 1 + lag n s t = lag n s t - 1 + n by omega, Nat.ModEq,
      Nat.add_mod_right, Nat.mod_eq_of_lt (lag_lt hn s j), Nat.mod_eq_of_lt (by omega)] at h1
    exact h1
  have hlast := (h j hj).1 (by omega)
  omega

theorem dealt_eq_dealt_iff (hn : 0 < n) (s t len : ℕ) :
    (∀ j < n, dealt n s len j = dealt n t len j) ↔ n ∣ len ∨ s ≡ t [MOD n] := by
  constructor
  · intro h
    by_cases hlen : n ∣ len
    · exact Or.inl hlen
    · right
      have hm : 0 < len % n := Nat.pos_of_ne_zero fun h0 => hlen (Nat.dvd_of_mod_eq_zero h0)
      refine modEq_of_lag_iff hn hm (Nat.mod_lt _ hn) fun j hj => ?_
      have hj' := h j hj
      rw [dealt_eq hn, dealt_eq hn] at hj'
      split_ifs at hj' <;> omega
  · rintro (h | h) j -
    · rw [dealt_eq hn, dealt_eq hn, Nat.mod_eq_zero_of_dvd h]
      simp
    · rw [dealt_eq hn, dealt_eq hn, lag_congr h]

end Rannc.RoundRobin
