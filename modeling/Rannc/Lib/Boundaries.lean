import Mathlib.Algebra.BigOperators.Group.Finset.Basic
import Mathlib.Algebra.Order.BigOperators.Group.Finset
import Mathlib.Algebra.Order.Floor.Ring
import Mathlib.Data.Rat.Floor
import Mathlib.Tactic

/-!
# Boundaries of blocks

The first numbers are cut into consecutive blocks by the positions at which the blocks end. When
blocks are scaled by a factor and truncated, they take together no more than their sum does.
-/
namespace Rannc

/-- A number without its fraction. -/
def truncate (x : ℚ) : ℤ := x.num.tdiv x.den

section Truncate

variable {x q : ℚ}

theorem truncate_of_nonneg (hx : 0 ≤ x) : truncate x = ⌊x⌋ := by
  rw [truncate, Int.tdiv_eq_ediv_of_nonneg (Rat.num_nonneg.mpr hx), Rat.floor_def']

theorem truncate_neg (x : ℚ) : truncate (-x) = -truncate x := by
  rw [truncate, truncate, Rat.neg_num, Rat.neg_den, Int.neg_tdiv]

theorem truncate_nonneg (hx : 0 ≤ x) : 0 ≤ truncate x := by
  rw [truncate_of_nonneg hx]
  exact Int.floor_nonneg.mpr hx

theorem truncate_le (hx : 0 ≤ x) : (truncate x : ℚ) ≤ x := by
  rw [truncate_of_nonneg hx]
  exact Int.floor_le x

theorem truncate_div {a b : ℤ} (ha : 0 ≤ a) (hb : 0 ≤ b) : truncate (a / b : ℚ) = a / b := by
  obtain ⟨d, rfl⟩ := Int.eq_ofNat_of_zero_le hb
  rw [truncate_of_nonneg (by positivity), Int.cast_natCast, Rat.floor_intCast_div_natCast]

theorem sum_truncate_le {b : ℕ → ℤ} {s : Finset ℕ} (hb : ∀ i ∈ s, 0 ≤ b i) (hq : 0 ≤ q) :
    ((∑ i ∈ s, truncate (b i * q) : ℤ) : ℚ) ≤ (∑ i ∈ s, b i : ℤ) * q := by
  rw [Int.cast_sum, Int.cast_sum, Finset.sum_mul]
  refine Finset.sum_le_sum fun i hi => truncate_le (mul_nonneg ?_ hq)
  exact_mod_cast hb i hi

end Truncate

/-- Where a block starts, which is where the one before it ends. -/
def boundary (split : List UInt64) (i : ℕ) : ℕ :=
  if i = 0 then 0 else (split.getD (i - 1) 0).toNat

/-- The blocks are consecutive and make up the first `n` numbers. -/
structure ValidSplit (n : ℕ) (split : List UInt64) : Prop where
  sorted : split.Pairwise (· ≤ ·)
  last : split.getLast?.map UInt64.toNat = some n

section Valid

variable {n : ℕ} {split : List UInt64}

@[simp] theorem boundary_zero (split : List UInt64) : boundary split 0 = 0 := rfl

@[simp] theorem boundary_succ (split : List UInt64) (i : ℕ) :
    boundary split (i + 1) = (split.getD i 0).toNat := rfl

theorem boundary_getElem {i : ℕ} (hi : i < split.length) :
    boundary split (i + 1) = split[i].toNat := by
  simp [hi]

theorem boundary_le_of_steps (h : ∀ i < split.length, boundary split i ≤ boundary split (i + 1))
    {i j : ℕ} (hij : i ≤ j) (hj : j ≤ split.length) : boundary split i ≤ boundary split j := by
  induction j, hij using Nat.le_induction with
  | base => exact le_rfl
  | succ j _ ih => exact (ih (by omega)).trans (h j (by omega))

theorem validSplit_iff : ValidSplit n split ↔ split ≠ [] ∧
    (∀ i < split.length, boundary split i ≤ boundary split (i + 1)) ∧
      boundary split split.length = n := by
  have hlast : split ≠ [] →
      split.getLast?.map UInt64.toNat = some (boundary split split.length) := by
    intro hne
    obtain ⟨k, hk⟩ := Nat.exists_eq_add_one.mpr (List.length_pos_iff.mpr hne)
    rw [List.getLast?_eq_getElem?, hk, Nat.add_sub_cancel, List.getElem?_eq_getElem (by omega),
      boundary_getElem (by omega)]
    rfl
  constructor
  · rintro ⟨hsorted, hn⟩
    have hne : split ≠ [] := by
      rintro rfl
      exact absurd hn nofun
    refine ⟨hne, fun i hi => ?_, Option.some.inj ((hlast hne).symm.trans hn)⟩
    cases i with
    | zero => exact Nat.zero_le _
    | succ i =>
      rw [boundary_getElem (by omega), boundary_getElem hi]
      exact List.pairwise_iff_getElem.mp hsorted i (i + 1) (by omega) hi (Nat.lt_succ_self i)
  · rintro ⟨hne, hsteps, hn⟩
    refine ⟨List.pairwise_iff_getElem.mpr fun i j hi hj hij => ?_, hn ▸ hlast hne⟩
    have hle := boundary_le_of_steps hsteps (Nat.succ_le_succ hij.le) hj
    rwa [boundary_getElem hi, boundary_getElem hj] at hle

theorem ValidSplit.ne_nil (h : ValidSplit n split) : split ≠ [] := (validSplit_iff.mp h).1

theorem ValidSplit.boundary_length (h : ValidSplit n split) : boundary split split.length = n :=
  (validSplit_iff.mp h).2.2

theorem ValidSplit.boundary_mono (h : ValidSplit n split) {i j : ℕ} (hij : i ≤ j)
    (hj : j ≤ split.length) : boundary split i ≤ boundary split j :=
  boundary_le_of_steps (validSplit_iff.mp h).2.1 hij hj

theorem ValidSplit.boundary_le (h : ValidSplit n split) {i : ℕ} (hi : i ≤ split.length) :
    boundary split i ≤ n :=
  (h.boundary_mono hi le_rfl).trans h.boundary_length.le

theorem boundary_set {a : UInt64} {i : ℕ} (hi : i < split.length) (j : ℕ) :
    boundary (split.set i a) (j + 1) = if j = i then a.toNat else boundary split (j + 1) := by
  split_ifs with hji
  · simp [hji, hi]
  · simp [List.getElem?_set_ne (Ne.symm hji)]

/-- A position but the last one may be moved between the positions around it. -/
theorem validSplit_set_iff (h : ValidSplit n split) {a : UInt64} {i : ℕ}
    (hi : i + 1 < split.length) : ValidSplit n (split.set i a) ↔
      boundary split i ≤ a.toNat ∧ a.toNat ≤ boundary split (i + 2) := by
  have hset : ∀ j, boundary (split.set i a) (j + 1) =
      if j = i then a.toNat else boundary split (j + 1) := boundary_set (by omega)
  have hbefore : boundary (split.set i a) i = boundary split i := by
    cases i with
    | zero => rfl
    | succ j => rw [hset, if_neg (by omega)]
  constructor
  · intro hnew
    have hle := hnew.boundary_mono (Nat.le_succ i) (by rw [List.length_set]; omega)
    have hge := hnew.boundary_mono (Nat.le_succ (i + 1)) (by rw [List.length_set]; omega)
    rw [Nat.succ_eq_add_one, hset, if_pos rfl] at hle hge
    rw [hset, if_neg (by omega)] at hge
    exact ⟨hbefore ▸ hle, hge⟩
  · rintro ⟨hle, hge⟩
    refine validSplit_iff.mpr ⟨by simpa using h.ne_nil, fun j hj => ?_, ?_⟩
    · rw [List.length_set] at hj
      have hmono := h.boundary_mono (Nat.le_succ j) hj
      rw [hset]
      split_ifs with hji
      · rw [hji, hbefore]
        exact hle
      · cases j with
        | zero => exact Nat.zero_le _
        | succ j =>
          rw [hset]
          split_ifs with hji'
          · rw [hji']
            exact hge
          · exact hmono
    · obtain ⟨j, hj⟩ := Nat.exists_eq_add_one.mpr (by omega : 0 < split.length)
      rw [List.length_set, hj, hset, if_neg (by omega), ← hj, h.boundary_length]

theorem sum_range' {M : Type*} [AddCommMonoid M] (f : ℕ → M) (first count : ℕ) :
    ((List.range' first count).map f).sum = ∑ l ∈ Finset.Ico first (first + count), f l := by
  induction count with
  | zero => simp
  | succ count ih =>
    rw [List.range'_1_concat, List.map_append, List.sum_append, ih, ← Nat.add_assoc,
      Finset.sum_Ico_succ_top (Nat.le_add_right first count)]
    simp

theorem sum_blocks (split : List UInt64) {i j : ℕ} (hij : i ≤ j) :
    ∑ l ∈ Finset.Ico i j, ((boundary split (l + 1) : ℤ) - boundary split l) =
      boundary split j - boundary split i := by
  rw [Finset.sum_Ico_eq_sub _ hij, Finset.sum_range_sub (fun l => (boundary split l : ℤ)),
    Finset.sum_range_sub (fun l => (boundary split l : ℤ))]
  ring

end Valid

/-- Write running sums over a list, from a position on. -/
def fill (size : ℕ → UInt64) (offset : UInt64) (split : List UInt64) (first count : ℕ) :
    UInt64 × List UInt64 :=
  (List.range' first count).foldl
    (fun st i => (st.1 + size i, st.2.set i (st.1 + size i))) (offset, split)

section Fill

variable {size : ℕ → UInt64} {f : ℕ → ℕ} {offset : UInt64} {split : List UInt64} {first count i : ℕ}

theorem fill_succ (size : ℕ → UInt64) (offset : UInt64) (split : List UInt64) (first count : ℕ) :
    fill size offset split first (count + 1) =
      ((fill size offset split first count).1 + size (first + count),
        (fill size offset split first count).2.set (first + count)
          ((fill size offset split first count).1 + size (first + count))) := by
  simp [fill, List.range'_1_concat]

@[simp] theorem length_fill (size : ℕ → UInt64) (offset : UInt64) (split : List UInt64)
    (first count : ℕ) : (fill size offset split first count).2.length = split.length := by
  induction count with
  | zero => rfl
  | succ count ih => rw [fill_succ, List.length_set, ih]

theorem fill_offset (hsize : ∀ j, first ≤ j → j < first + count → (size j).toNat = f j)
    (hfits : offset.toNat + ∑ j ∈ Finset.Ico first (first + count), f j < 2 ^ 64) :
    (fill size offset split first count).1.toNat =
      offset.toNat + ∑ j ∈ Finset.Ico first (first + count), f j := by
  induction count with
  | zero => simp [fill]
  | succ count ih =>
    have hsum := Finset.sum_Ico_succ_top (Nat.le_add_right first count) f
    rw [← Nat.add_assoc, hsum] at hfits ⊢
    have hoffset := ih (fun j hj hlt => hsize j hj (by omega)) (by omega)
    rw [fill_succ, UInt64.toNat_add, hoffset, hsize (first + count) (by omega) (by omega),
      Nat.mod_eq_of_lt (by omega)]
    omega

theorem boundary_fill_of_not_mem (hi : i < first ∨ first + count ≤ i) :
    boundary (fill size offset split first count).2 (i + 1) = boundary split (i + 1) := by
  induction count with
  | zero => rfl
  | succ count ih =>
    have hne : first + count ≠ i := by omega
    rw [← ih (by omega), fill_succ]
    simp [List.getElem?_set_ne hne]

theorem boundary_fill (hfirst : first ≤ i) (hi : i < first + count) (hlength : i < split.length)
    (hsize : ∀ j, first ≤ j → j ≤ i → (size j).toNat = f j)
    (hfits : offset.toNat + ∑ j ∈ Finset.Ico first (i + 1), f j < 2 ^ 64) :
    boundary (fill size offset split first count).2 (i + 1) =
      offset.toNat + ∑ j ∈ Finset.Ico first (i + 1), f j := by
  induction count with
  | zero => omega
  | succ count ih =>
    rcases Nat.lt_or_ge i (first + count) with hlt | hge
    · have hne : first + count ≠ i := by omega
      rw [← ih hlt, fill_succ]
      simp [List.getElem?_set_ne hne]
    · obtain rfl : i = first + count := by omega
      rw [fill_succ, boundary_set (by simpa using hlength), if_pos rfl]
      have hoffset : (fill size offset split first (count + 1)).1.toNat = _ :=
        fill_offset (fun j hj hlt => hsize j hj (by omega)) hfits
      rw [fill_succ] at hoffset
      exact hoffset

theorem boundary_fill_le (hfirst : first ≤ i) (hi : i ≤ first + count)
    (hlength : first + count < split.length)
    (hsize : ∀ j, first ≤ j → j < first + count → (size j).toNat = f j)
    (hoffset : offset.toNat = boundary split first)
    (hfits : offset.toNat + ∑ j ∈ Finset.Ico first (first + count), f j < 2 ^ 64) :
    boundary (fill size offset split first count).2 i =
      offset.toNat + ∑ j ∈ Finset.Ico first i, f j := by
  rcases Nat.eq_or_lt_of_le hfirst with rfl | hlt
  · rw [Finset.Ico_self, Finset.sum_empty, Nat.add_zero, hoffset]
    cases first with
    | zero => rfl
    | succ first => exact boundary_fill_of_not_mem (Or.inl (Nat.lt_succ_self first))
  · obtain ⟨i, rfl⟩ := Nat.exists_eq_add_one.mpr (Nat.zero_lt_of_lt hlt)
    have hsub : ∑ j ∈ Finset.Ico first (i + 1), f j ≤ ∑ j ∈ Finset.Ico first (first + count), f j :=
      Finset.sum_le_sum_of_subset (Finset.Ico_subset_Ico le_rfl hi)
    exact boundary_fill (by omega) hi (by omega) (fun j hj hle => hsize j hj (by omega)) (by omega)

/-- New blocks that start and end where there is room for them. -/
theorem validSplit_fill {n : ℕ} (hlength : first + count < split.length)
    (hsize : ∀ j, first ≤ j → j < first + count → (size j).toNat = f j)
    (hoffset : offset.toNat = boundary split first)
    (htotal : offset.toNat + ∑ j ∈ Finset.Ico first (first + count), f j ≤
      boundary split (first + count + 1))
    (houtside : ∀ i < split.length, i < first ∨ first + count < i →
      boundary split i ≤ boundary split (i + 1))
    (hlast : boundary split split.length = n) :
    ValidSplit n (fill size offset split first count).2 := by
  have hfits : offset.toNat + ∑ j ∈ Finset.Ico first (first + count), f j < 2 ^ 64 :=
    htotal.trans_lt (UInt64.toNat_lt _)
  have hkeep : ∀ i, i ≤ first ∨ first + count < i →
      boundary (fill size offset split first count).2 i = boundary split i := by
    intro i hi
    cases i with
    | zero => rfl
    | succ i => exact boundary_fill_of_not_mem (by omega)
  have hne : (fill size offset split first count).2 ≠ [] := by
    rw [← List.length_pos_iff, length_fill]
    omega
  refine validSplit_iff.mpr ⟨hne, fun i hi => ?_, ?_⟩
  · rw [length_fill] at hi
    rcases Nat.lt_or_ge i first with hlt | hge
    · rw [hkeep i (by omega), hkeep (i + 1) (by omega)]
      exact houtside i hi (Or.inl hlt)
    rcases Nat.lt_or_ge (first + count) i with hlater | hle
    · rw [hkeep i (by omega), hkeep (i + 1) (by omega)]
      exact houtside i hi (Or.inr hlater)
    rw [boundary_fill_le hge hle hlength hsize hoffset hfits]
    rcases Nat.eq_or_lt_of_le hle with rfl | hlt
    · rw [hkeep (first + count + 1) (by omega)]
      exact htotal
    · rw [boundary_fill_le (by omega) hlt hlength hsize hoffset hfits,
        Finset.sum_Ico_succ_top hge]
      omega
  · rw [length_fill, hkeep _ (by omega)]
    exact hlast

theorem fill_set {a : UInt64} (hi : first + count ≤ i) :
    (fill size offset split first count).2.set i a =
        (fill size offset (split.set i a) first count).2 ∧
      (fill size offset split first count).1 =
        (fill size offset (split.set i a) first count).1 := by
  induction count with
  | zero => exact ⟨rfl, rfl⟩
  | succ count ih =>
    obtain ⟨hlist, hoffset⟩ := ih (by omega)
    have hne : first + count ≠ i := by omega
    rw [fill_succ, fill_succ]
    dsimp only
    rw [List.set_comm _ _ hne, hlist, hoffset]
    exact ⟨rfl, rfl⟩

end Fill

end Rannc
