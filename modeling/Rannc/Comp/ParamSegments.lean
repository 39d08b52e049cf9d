import Rannc.Common.BatchSplit
import Rannc.Lib.Slices

/-!
# Segments of a parameter

A parameter is cut into as many segments as it has ranks. All are of one size but for the last ones,
which take what is left.
-/
namespace Rannc

/-- The offsets and sizes from an offset on. -/
def segmentsFrom (numel segment_size : ℕ) : ℕ → ℕ → List (ℕ × ℕ)
  | 0, _ => []
  | n + 1, offset =>
    let src_size := min (numel - offset) segment_size
    (offset, src_size) :: segmentsFrom numel segment_size n (offset + src_size)

def doRegister (numel : ℕ) (ranks : Finset ℕ) : List (ℕ × ℕ) :=
  let segment_size := (ceilDiv numel ranks.card).toNat
  segmentsFrom numel segment_size ranks.card 0

theorem length_segmentsFrom (numel segment_size n offset : ℕ) :
    (segmentsFrom numel segment_size n offset).length = n := by
  induction n generalizing offset with
  | zero => rfl
  | succ n ih => exact congrArg (· + 1) (ih _)

theorem segmentsFrom_cuts {numel segment_size n offset : ℕ} (hoffset : offset ≤ numel)
    (h : numel ≤ offset + n * segment_size) :
    Cuts offset (segmentsFrom numel segment_size n offset) numel := by
  induction n generalizing offset with
  | zero =>
    have heq : offset = numel := by omega
    rw [heq]
    exact Cuts.nil numel
  | succ n ih =>
    apply Cuts.cons
    apply ih
    · omega
    · rw [Nat.succ_mul] at h
      by_cases hlast : numel - offset ≤ segment_size
      · rw [Nat.min_eq_left hlast]
        omega
      · rw [Nat.min_eq_right (by omega)]
        omega

theorem size_le_of_mem_segmentsFrom {numel segment_size n offset : ℕ} :
    ∀ e ∈ segmentsFrom numel segment_size n offset, e.2 ≤ segment_size := by
  induction n generalizing offset with
  | zero => simp [segmentsFrom]
  | succ n ih =>
    intro e he
    cases List.mem_cons.mp he with
    | inl heq =>
      rw [heq]
      exact min_le_right _ _
    | inr hmem => exact ih e hmem

/-- Only the last segments are padded, so what is put together starts with the parameter. -/
theorem take_flatMap_padded {α : Type} {l : List α} (pad : α) (segment_size n : ℕ) {offset : ℕ}
    (hoffset : offset ≤ l.length) (h : l.length ≤ offset + n * segment_size) :
    ((segmentsFrom l.length segment_size n offset).flatMap fun e =>
      slice l e ++ List.replicate (segment_size - e.2) pad).take (l.length - offset) =
        l.drop offset := by
  induction n generalizing offset with
  | zero =>
    have heq : offset = l.length := by omega
    simp [heq]
  | succ n ih =>
    rw [Nat.succ_mul] at h
    unfold segmentsFrom
    dsimp only
    rw [List.flatMap_cons]
    by_cases hlast : l.length - offset < segment_size
    · have hmin : min (l.length - offset) segment_size = l.length - offset := by omega
      have hlength : (slice l (offset, l.length - offset)).length = l.length - offset := by
        simp [slice]
      rw [hmin, List.append_assoc, List.take_left' hlength]
      simp [slice]
    · have hmin : min (l.length - offset) segment_size = segment_size := by omega
      have hlength : (slice l (offset, segment_size)).length = segment_size := by
        simp [slice]
        omega
      have hrest := @ih (offset + segment_size) (by omega) (by omega)
      have hsub : l.length - offset - segment_size = l.length - (offset + segment_size) := by omega
      rw [hmin, Nat.sub_self, List.replicate_zero, List.append_nil, List.take_append, hlength,
        List.take_of_length_le (by omega), hsub, hrest]
      unfold slice
      dsimp only
      rw [← List.drop_drop, List.take_append_drop]

theorem le_mul_ceilDiv {a b : ℕ} (hb : 0 < b) : a ≤ b * (ceilDiv a b).toNat := by
  have hdiv : -(a : ℤ) / b * b ≤ -(a : ℤ) := Int.ediv_mul_le _ (by omega)
  have hle : (a : ℤ) ≤ b * (ceilDiv a b) := by
    unfold ceilDiv
    have hneg : (b : ℤ) * -(-(a : ℤ) / b) = -(-(a : ℤ) / b * b) := by ring
    rw [hneg]
    omega
  have htoNat : (ceilDiv a b : ℤ) ≤ ((ceilDiv a b).toNat : ℤ) := Int.self_le_toNat _
  have hmul : (b : ℤ) * ceilDiv a b ≤ b * ((ceilDiv a b).toNat : ℤ) :=
    mul_le_mul_of_nonneg_left htoNat (by omega)
  exact_mod_cast hle.trans hmul

variable {ranks : Finset ℕ}

@[simp] theorem length_doRegister (numel : ℕ) : (doRegister numel ranks).length = ranks.card :=
  length_segmentsFrom ..

theorem doRegister_cuts (hranks : ranks.Nonempty) (numel : ℕ) :
    Cuts 0 (doRegister numel ranks) numel := by
  apply segmentsFrom_cuts (Nat.zero_le numel)
  rw [Nat.zero_add]
  exact le_mul_ceilDiv hranks.card_pos

end Rannc
