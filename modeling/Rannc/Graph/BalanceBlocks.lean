import Rannc.Graph.MergeStatistics
import Rannc.Lib.Boundaries

/-!
# Moving the boundaries of blocks

One block of a split is scaled towards the average of the values of all blocks. What it gains is
taken from all blocks on one of its sides, which are scaled as well. Nothing looks at whether they
hold as much, and then the new positions are not in order.
-/
namespace Rannc

/-- The conversion of a double to a long, of no number if the double is not finite. It truncates
where the result fits and is not specified where it does not. -/
structure LongCast where
  cast : Option ℚ → ℤ
  cast_eq : ∀ x, toLong (truncate x) = truncate x → cast (some x) = truncate x
  toLong_cast : ∀ x, toLong (cast x) = cast x

/-- A conversion to an unsigned number. -/
def truncSize (x : ℚ) : UInt64 := UInt64.ofInt (truncate x)

def quotient (a b : ℤ) : Option ℚ := if b = 0 then none else some (a / b)

/-- The sum is accumulated in an int. -/
def sumInt (v : List ℤ) : ℤ := v.foldl (fun sum x => (sum + x).bmod (2 ^ 32)) 0

/-- The division is one of unsigned numbers. -/
def average (v : List ℤ) : ℤ := toLong (sumInt v % 2 ^ 64 / v.length)

/-- Positions are in range. -/
def block_size (split : List UInt64) (idx : ℕ) : ℤ :=
  if idx = 0 then toLong (split.getD idx 0).toNat
  else toLong (split.getD idx 0 - split.getD (idx - 1) 0).toNat

def left_block_size (split : List UInt64) (idx : ℕ) : ℤ :=
  sumLong ((List.range idx).map (block_size split))

def right_block_size (split : List UInt64) (idx : ℕ) : ℤ :=
  sumLong ((List.range' (idx + 1) (split.length - (idx + 1))).map (block_size split))

def block_diff_to_ave (vals : List ℤ) (idx : ℕ) : ℤ := toLong (average vals - vals.getD idx 0)

def max_val_diff_block_idx (vals : List ℤ) : ℕ :=
  ((List.range vals.length).foldl (fun (st : ℤ × ℕ) sg_idx =>
    let diff := block_diff_to_ave vals sg_idx
    if |st.1| < |diff| then (diff, sg_idx) else st) (0, 0)).2

def sum_abs_diff_to_ave (vals : List ℤ) : ℤ :=
  sumLong ((List.range vals.length).map fun i => |block_diff_to_ave vals i|)

def TIME_DIFF_THRES : ℚ := 1 / 100

def FIX_RATE : ℚ := 1 / 10

section Balance

variable (long : LongCast) (split : List UInt64) (vals : List ℤ) (idx : ℕ)

def scale_to_ave (fix_rate : ℚ) : Option ℚ :=
  let val := vals.getD idx 0
  let diff := block_diff_to_ave vals idx
  let scaled_val := long.cast (some (val + diff * fix_rate))
  quotient scaled_val val

def blocks_to_move_by_scale (scale : Option ℚ) : ℤ :=
  let n_blocks := block_size split idx
  let n_block_scaled := long.cast (scale.map (n_blocks * ·))
  toLong (n_block_scaled - n_blocks)

def blocks_to_move (fix_rate : ℚ) : ℤ :=
  blocks_to_move_by_scale long split idx (scale_to_ave long vals idx fix_rate)

/-- The factor for the blocks that give up what is moved. -/
def scale_by_block_num (n_block n_move_block : ℤ) : ℚ :=
  if n_block = 0 then 1 else toLong (n_block - n_move_block) / n_block

def left_scale (n_move_block : ℤ) : ℚ := scale_by_block_num (left_block_size split idx) n_move_block

def right_scale (n_move_block : ℤ) : ℚ :=
  scale_by_block_num (right_block_size split idx) n_move_block

/-- A number of type `size_t` to which a long is added. -/
def addLong (offset : UInt64) (size : ℤ) : UInt64 := offset + UInt64.ofInt size

def scale_left_block (n_move_block : ℤ) : List UInt64 :=
  if idx = 0 then split
  else
    let scale := left_scale split idx n_move_block
    let (offset, new_split) := fill (fun i => truncSize (block_size split i * scale)) 0 split 0 idx
    if idx ≠ vals.length - 1 then
      new_split.set idx (addLong offset (toLong (block_size split idx + n_move_block)))
    else new_split

def scale_right_block (n_move_block : ℤ) : List UInt64 :=
  if idx = vals.length - 1 then split
  else
    let offset := if 0 < idx then split.getD (idx - 1) 0 else 0
    let offset := addLong offset (toLong (block_size split idx + n_move_block))
    let scale := right_scale split idx n_move_block
    (fill (fun i => truncSize (block_size split i * scale)) offset (split.set idx offset) (idx + 1)
      (split.length - 1 - (idx + 1))).2

/-- There has to be a value for every block. -/
def est_vals_scale_block (new_split : List UInt64) : Option (List ℤ) :=
  (List.range split.length).mapM fun i => do
    let val ← vals[i]?
    return long.cast ((quotient (block_size new_split i) (block_size split i)).map (val * ·))

/-- Whether the largest value is expected to be smaller when the blocks on the left are scaled. -/
def balance_left (n_move_node : ℤ) : Option Bool := do
  let est_vals_left ← est_vals_scale_block long split vals
    (scale_left_block split vals idx n_move_node)
  let est_max_val_left ← est_vals_left.max?
  let est_vals_right ← est_vals_scale_block long split vals
    (scale_right_block split vals idx n_move_node)
  let est_max_val_right ← est_vals_right.max?
  return 0 < toLong (est_max_val_right - est_max_val_left)

def balance_blocks (n_move_node : ℤ) : Option (List UInt64) := do
  if ← balance_left long split vals idx n_move_node then
    return scale_left_block split vals idx n_move_node
  else return scale_right_block split vals idx n_move_node

/-- How much the block gains whose value is farthest from the average. -/
def stepMove : ℤ := blocks_to_move long split vals (max_val_diff_block_idx vals) FIX_RATE

/-- The new split and whether the values differ too little for another one. There is no average of
no values. -/
def doBalanceSplitVariance : Option (List UInt64 × Bool) := do
  guard (vals ≠ [])
  let max_val_diff_idx := max_val_diff_block_idx vals
  let diff_sum := sum_abs_diff_to_ave vals
  if diff_sum < sumInt vals * TIME_DIFF_THRES then return (split, true)
  else
    guard (max_val_diff_idx < split.length)
    return (← balance_blocks long split vals max_val_diff_idx (stepMove long split vals), false)

end Balance

section Long

theorem toLong_bounds (x : ℤ) : -2 ^ 63 ≤ toLong x ∧ toLong x < 2 ^ 63 :=
  ⟨Int.le_bmod (by decide), Int.bmod_lt (by decide)⟩

theorem toLong_eq {x : ℤ} (hle : -2 ^ 63 ≤ x) (hlt : x < 2 ^ 63) : toLong x = x :=
  Int.bmod_eq_of_le (by omega) (by omega)

theorem toLong_sub_toLong (a b : ℤ) : toLong (a - toLong b) = toLong (a - b) :=
  Int.sub_bmod_bmod

theorem toNat_ofInt (x : ℤ) : (UInt64.ofInt x).toNat = (x % 2 ^ 64).toNat := by
  rw [UInt64.ofInt, UInt64.toNat_ofNat']
  have hlt : (x % 2 ^ 64).toNat < 2 ^ 64 := by omega
  exact Nat.mod_eq_of_lt hlt

theorem toNat_addLong (offset : UInt64) (size : ℤ) :
    ((addLong offset size).toNat : ℤ) = (offset.toNat + size) % 2 ^ 64 := by
  rw [addLong, UInt64.toNat_add, toNat_ofInt]
  omega

end Long

section Sizes

variable {n : ℕ} {split : List UInt64} {idx : ℕ}

theorem block_size_eq (hvalid : ValidSplit n split) (hn : n < 2 ^ 63) (hidx : idx < split.length) :
    block_size split idx = boundary split (idx + 1) - boundary split idx := by
  have hle := hvalid.boundary_le (i := idx + 1) hidx
  have hmono := hvalid.boundary_mono (Nat.le_succ idx) hidx
  cases idx with
  | zero =>
    rw [block_size, if_pos rfl]
    rw [boundary_succ] at hle ⊢
    rw [toLong_eq (by omega) (by omega)]
    simp
  | succ idx =>
    rw [block_size, if_neg (Nat.succ_ne_zero idx), Nat.add_sub_cancel]
    rw [boundary_succ, boundary_succ] at hmono ⊢
    rw [boundary_succ] at hle
    rw [UInt64.toNat_sub_of_le _ _ (UInt64.le_iff_toNat_le.mpr hmono),
      toLong_eq (by omega) (by omega)]
    omega

theorem sumLong_block_size (hvalid : ValidSplit n split) (hn : n < 2 ^ 63) {first count : ℕ}
    (hcount : first + count ≤ split.length) :
    sumLong ((List.range' first count).map (block_size split)) =
      boundary split (first + count) - boundary split first := by
  have hle := hvalid.boundary_le hcount
  have hmono := hvalid.boundary_mono (Nat.le_add_right first count) hcount
  have hsizes : ∀ i ∈ Finset.Ico first (first + count),
      block_size split i = boundary split (i + 1) - boundary split i := fun i hi =>
    block_size_eq hvalid hn ((Finset.mem_Ico.mp hi).2.trans_le hcount)
  rw [sumLong_eq, sum_range', Finset.sum_congr rfl hsizes,
    sum_blocks split (Nat.le_add_right first count), toLong_eq (by omega) (by omega)]

theorem left_block_size_eq (hvalid : ValidSplit n split) (hn : n < 2 ^ 63)
    (hidx : idx < split.length) : left_block_size split idx = boundary split idx := by
  rw [left_block_size, List.range_eq_range', sumLong_block_size hvalid hn (by omega)]
  simp

theorem right_block_size_eq (hvalid : ValidSplit n split) (hn : n < 2 ^ 63)
    (hidx : idx < split.length) : right_block_size split idx = n - boundary split (idx + 1) := by
  rw [right_block_size, sumLong_block_size hvalid hn (by omega), Nat.add_sub_cancel' hidx,
    hvalid.boundary_length]

end Sizes

/-- The size of the block that gains. -/
def movedSize (split : List UInt64) (idx : ℕ) (n_move_block : ℤ) : ℤ :=
  toLong (block_size split idx + n_move_block)

/-- The block and those on its right have room for it. -/
def RightFits (n : ℕ) (split : List UInt64) (idx : ℕ) (size : ℤ) : Prop :=
  idx + 1 = split.length ∨ 0 ≤ size ∧ boundary split idx + size ≤ n

/-- The block and those on its left have room for it, or those on the left are so small that nothing
is taken from them and there is room up to the end of the block on the right. -/
def LeftFits (split : List UInt64) (idx : ℕ) (size : ℤ) : Prop :=
  idx = 0 ∨ 0 ≤ size ∧ (size ≤ boundary split (idx + 1) ∨
    (∀ i < idx, ((boundary split (i + 1) : ℤ) - boundary split i) *
      (size - boundary split (idx + 1)) / boundary split idx = 0) ∧
    (idx + 1 = split.length ∨ size ≤ boundary split (idx + 2)))

section Scale

variable {n : ℕ} {split : List UInt64} {vals : List ℤ} {idx : ℕ} {n_move : ℤ}

theorem toLong_sub_move (split : List UInt64) (idx : ℕ) (total n_move : ℤ) :
    toLong (total - n_move) =
      toLong (total + block_size split idx - movedSize split idx n_move) := by
  rw [movedSize, toLong_sub_toLong]
  congr 1
  ring

theorem scale_by_block_num_spec {total rest : ℤ} (htotal : 0 ≤ total)
    (hrest : toLong (total - n_move) = rest) (hnonneg : 0 ≤ rest) :
    0 ≤ scale_by_block_num total n_move ∧ total * scale_by_block_num total n_move ≤ rest := by
  unfold scale_by_block_num
  rw [hrest]
  have hrest_cast : (0 : ℚ) ≤ rest := by exact_mod_cast hnonneg
  have htotal_cast : (0 : ℚ) ≤ total := by exact_mod_cast htotal
  split_ifs with hzero
  · rw [hzero]
    exact ⟨zero_le_one, by simpa using hrest_cast⟩
  · have hne : (total : ℚ) ≠ 0 := by exact_mod_cast hzero
    exact ⟨div_nonneg hrest_cast htotal_cast, (mul_div_cancel₀ _ hne).le⟩

variable (hvalid : ValidSplit n split) (hn : n < 2 ^ 63)
include hvalid hn

/-- Blocks that are scaled take no more than what is left. -/
theorem exists_scaled_sizes (first count : ℕ) (hcount : first + count ≤ split.length)
    {total rest : ℤ} {scale : ℚ} (hscale : 0 ≤ scale ∧ total * scale ≤ rest)
    (hblocks : (boundary split (first + count) : ℤ) - boundary split first ≤ total)
    (hrest : rest < 2 ^ 63) : ∃ f : ℕ → ℕ,
      (∀ i, first ≤ i → i < first + count → (truncSize (block_size split i * scale)).toNat = f i) ∧
        ((∑ i ∈ Finset.Ico first (first + count), f i : ℕ) : ℤ) ≤ rest := by
  have hsize : ∀ i ∈ Finset.Ico first (first + count), 0 ≤ block_size split i := by
    intro i hi
    have hlt := (Finset.mem_Ico.mp hi).2.trans_le hcount
    have hmono : boundary split i ≤ boundary split (i + 1) :=
      hvalid.boundary_mono (Nat.le_succ i) hlt
    rw [block_size_eq hvalid hn hlt]
    omega
  have hnonneg : ∀ i ∈ Finset.Ico first (first + count),
      0 ≤ truncate (block_size split i * scale) := by
    intro i hi
    refine truncate_nonneg (mul_nonneg ?_ hscale.1)
    exact_mod_cast hsize i hi
  have hsum : ∑ i ∈ Finset.Ico first (first + count), truncate (block_size split i * scale) ≤
      rest := by
    have hblock : ∑ i ∈ Finset.Ico first (first + count), block_size split i ≤ total := by
      rw [Finset.sum_congr rfl fun i hi =>
        block_size_eq hvalid hn ((Finset.mem_Ico.mp hi).2.trans_le hcount),
        sum_blocks split (Nat.le_add_right first count)]
      exact hblocks
    have hle := (sum_truncate_le hsize hscale.1).trans
      ((mul_le_mul_of_nonneg_right (Int.cast_le.mpr hblock) hscale.1).trans hscale.2)
    exact_mod_cast hle
  refine ⟨fun i => (truncate (block_size split i * scale)).toNat, fun i hi hlt => ?_, ?_⟩
  · have hmem := Finset.mem_Ico.mpr ⟨hi, hlt⟩
    have hsingle := Finset.single_le_sum hnonneg hmem
    have hzero := hnonneg i hmem
    rw [truncSize, toNat_ofInt, Int.emod_eq_of_lt hzero (by omega)]
  · rw [Nat.cast_sum, Finset.sum_congr rfl fun i hi => Int.toNat_of_nonneg (hnonneg i hi)]
    exact hsum

end Scale

section Right

variable {n : ℕ} {split : List UInt64} {vals : List ℤ} {idx : ℕ} {n_move : ℤ}

theorem length_scale_right_block :
    (scale_right_block split vals idx n_move).length = split.length := by
  unfold scale_right_block
  split_ifs <;> simp

theorem toNat_start (split : List UInt64) (idx : ℕ) :
    (if 0 < idx then split.getD (idx - 1) 0 else 0).toNat = boundary split idx := by
  cases idx <;> rfl

/-- The end of the block that gains. -/
def newEnd (split : List UInt64) (idx : ℕ) (n_move_block : ℤ) : UInt64 :=
  addLong (if 0 < idx then split.getD (idx - 1) 0 else 0) (movedSize split idx n_move_block)

theorem toNat_newEnd : ((newEnd split idx n_move).toNat : ℤ) =
    (boundary split idx + movedSize split idx n_move) % 2 ^ 64 := by
  rw [newEnd, toNat_addLong, toNat_start]

theorem scale_right_block_of_ne (hlast : idx ≠ vals.length - 1) :
    scale_right_block split vals idx n_move =
      (fill (fun i => truncSize (block_size split i * right_scale split idx n_move))
        (newEnd split idx n_move) (split.set idx (newEnd split idx n_move)) (idx + 1)
        (split.length - 1 - (idx + 1))).2 :=
  if_neg hlast

variable (hvalid : ValidSplit n split) (hn : n < 2 ^ 63) (hidx : idx < split.length)
  (hvals : vals.length = split.length)
include hvalid hn hidx hvals

theorem scale_right_block_valid (hfits : RightFits n split idx (movedSize split idx n_move)) :
    ValidSplit n (scale_right_block split vals idx n_move) := by
  by_cases hlast : idx = vals.length - 1
  · rw [scale_right_block, if_pos hlast]
    exact hvalid
  obtain ⟨hnonneg, hroom⟩ := hfits.resolve_left (by omega)
  rw [scale_right_block_of_ne hlast]
  set size := movedSize split idx n_move with hsize
  have hmono : boundary split idx ≤ boundary split (idx + 1) :=
    hvalid.boundary_mono (Nat.le_succ idx) hidx
  have hend : (newEnd split idx n_move).toNat = boundary split idx + size := by
    rw [toNat_newEnd]
    exact Int.emod_eq_of_lt (by omega) (by omega)
  have hrest : toLong (right_block_size split idx - n_move) = n - boundary split idx - size := by
    rw [toLong_sub_move split idx, right_block_size_eq hvalid hn hidx,
      block_size_eq hvalid hn hidx, ← hsize, toLong_eq (by omega) (by omega)]
    ring
  have hright := right_block_size_eq hvalid hn hidx
  have hle := hvalid.boundary_le (i := idx + 1) hidx
  have hcount : idx + 1 + (split.length - 1 - (idx + 1)) = split.length - 1 := by omega
  have hblocks := hvalid.boundary_le (i := split.length - 1) (by omega)
  obtain ⟨f, hf, hsum⟩ := exists_scaled_sizes hvalid hn (idx + 1) (split.length - 1 - (idx + 1))
    (by omega) (scale_by_block_num_spec (by omega) hrest (by omega)) (by rw [hcount]; omega)
    (by omega)
  have hset : ∀ j, boundary (split.set idx (newEnd split idx n_move)) (j + 1) =
      if j = idx then (newEnd split idx n_move).toNat else boundary split (j + 1) :=
    boundary_set hidx
  have hbefore : ∀ j, j ≤ idx →
      boundary (split.set idx (newEnd split idx n_move)) j = boundary split j := by
    intro j hj
    cases j with
    | zero => rfl
    | succ j => rw [hset, if_neg (by omega)]
  have hlength : split.length - 1 + 1 = split.length := by omega
  have htop : boundary (split.set idx (newEnd split idx n_move)) split.length = n := by
    rw [← hlength, hset, if_neg (by omega), hlength, hvalid.boundary_length]
  refine validSplit_fill (by rw [List.length_set]; omega) hf ?_ ?_ ?_ (by rwa [List.length_set])
  · rw [hset, if_pos rfl]
  · rw [hcount, hlength, htop]
    rw [hcount] at hsum
    omega
  · intro i hi hi'
    rw [List.length_set] at hi
    rw [hbefore i (by omega), hset]
    split_ifs with heq
    · subst heq
      omega
    · exact hvalid.boundary_mono (Nat.le_succ i) hi

/-- Otherwise the end of the block that gains comes before its start or after the last position. -/
theorem rightFits_of_valid (h : ValidSplit n (scale_right_block split vals idx n_move)) :
    RightFits n split idx (movedSize split idx n_move) := by
  by_cases hlast : idx = vals.length - 1
  · exact Or.inl (by omega)
  rw [scale_right_block_of_ne hlast] at h
  refine Or.inr ?_
  have hbounds : -2 ^ 63 ≤ movedSize split idx n_move ∧ movedSize split idx n_move < 2 ^ 63 :=
    toLong_bounds _
  have hend : ((newEnd split idx n_move).toNat : ℤ) = _ := toNat_newEnd
  have hstart := hvalid.boundary_le hidx.le
  have hlength : idx + 1 ≤ split.length := hidx
  have hmono := h.boundary_mono (Nat.le_succ idx) (by simpa using hlength)
  have hle := h.boundary_le (i := idx + 1) (by simpa using hlength)
  have hnew : ∀ j, j ≤ idx → boundary (fill
      (fun i => truncSize (block_size split i * right_scale split idx n_move))
      (newEnd split idx n_move) (split.set idx (newEnd split idx n_move)) (idx + 1)
      (split.length - 1 - (idx + 1))).2 (j + 1) =
        if j = idx then (newEnd split idx n_move).toNat else boundary split (j + 1) := by
    intro j hj
    rw [boundary_fill_of_not_mem (Or.inl (by omega)), boundary_set hidx]
  have hbefore : boundary (fill
      (fun i => truncSize (block_size split i * right_scale split idx n_move))
      (newEnd split idx n_move) (split.set idx (newEnd split idx n_move)) (idx + 1)
      (split.length - 1 - (idx + 1))).2 idx = boundary split idx := by
    cases idx with
    | zero => rfl
    | succ j => rw [hnew j (Nat.le_succ j), if_neg (Nat.ne_of_lt (Nat.lt_succ_self j))]
  rw [hbefore, Nat.succ_eq_add_one, hnew idx le_rfl, if_pos rfl] at hmono
  rw [hnew idx le_rfl, if_pos rfl] at hle
  omega

end Right

section Left

variable {n : ℕ} {split : List UInt64} {vals : List ℤ} {idx : ℕ} {n_move : ℤ}

/-- The blocks on the left after they are scaled, and where the last of them ends. -/
def leftFill (split : List UInt64) (idx : ℕ) (n_move_block : ℤ) (base : List UInt64) :
    UInt64 × List UInt64 :=
  fill (fun i => truncSize (block_size split i * left_scale split idx n_move_block)) 0 base 0 idx

theorem scale_left_block_last (hzero : idx ≠ 0) (hlast : idx = vals.length - 1) :
    scale_left_block split vals idx n_move = (leftFill split idx n_move split).2 := by
  rw [scale_left_block, if_neg hzero]
  exact if_neg (not_not.mpr hlast)

theorem scale_left_block_of_ne (hzero : idx ≠ 0) (hlast : idx ≠ vals.length - 1) :
    scale_left_block split vals idx n_move = (leftFill split idx n_move split).2.set idx
      (addLong (leftFill split idx n_move split).1 (movedSize split idx n_move)) := by
  rw [scale_left_block, if_neg hzero]
  exact if_pos hlast

theorem length_scale_left_block :
    (scale_left_block split vals idx n_move).length = split.length := by
  unfold scale_left_block
  split_ifs
  · rfl
  · simp
  · simp

theorem boundary_scale_left_block (vals : List ℤ) (hidx : idx < split.length) (hzero : idx ≠ 0)
    {i : ℕ} (hi : i < idx) {f : ℕ → ℕ}
    (hf : ∀ j, 0 ≤ j → j ≤ i →
      (truncSize (block_size split j * left_scale split idx n_move)).toNat = f j)
    (hfits : ∑ j ∈ Finset.Ico 0 (i + 1), f j < 2 ^ 64) :
    boundary (scale_left_block split vals idx n_move) (i + 1) =
      ∑ j ∈ Finset.Ico 0 (i + 1), f j := by
  have hfill : boundary (leftFill split idx n_move split).2 (i + 1) =
      0 + ∑ j ∈ Finset.Ico 0 (i + 1), f j :=
    boundary_fill (Nat.zero_le i) (by omega) (by omega) hf
      (by rwa [UInt64.toNat_zero, Nat.zero_add])
  rw [Nat.zero_add] at hfill
  by_cases hlast : idx = vals.length - 1
  · rw [scale_left_block_last hzero hlast, hfill]
  · have hlength : (leftFill split idx n_move split).2.length = split.length := length_fill ..
    rw [scale_left_block_of_ne hzero hlast, boundary_set (by omega), if_neg (by omega), hfill]

/-- What is taken from a block on the left when more is taken from the left than there is. -/
def leftLoss (split : List UInt64) (idx : ℕ) (size : ℤ) (i : ℕ) : ℤ :=
  ((boundary split (i + 1) : ℤ) - boundary split i) * (size - boundary split (idx + 1)) /
    boundary split idx

variable (hvalid : ValidSplit n split) (hn : n < 2 ^ 63) (hidx : idx < split.length)
  (hvals : vals.length = split.length)

include hvalid hidx in
theorem leftLoss_bounds {size : ℤ} (hexceeds : (boundary split (idx + 1) : ℤ) < size) {i : ℕ}
    (hi : i < idx) :
    0 ≤ leftLoss split idx size i ∧
      leftLoss split idx size i ≤ size - boundary split (idx + 1) := by
  have hmono : boundary split i ≤ boundary split (i + 1) :=
    hvalid.boundary_mono (Nat.le_succ i) (by omega)
  have hle : boundary split (i + 1) ≤ boundary split idx := hvalid.boundary_mono hi hidx.le
  have hgain : 0 ≤ size - boundary split (idx + 1) := by omega
  refine ⟨Int.ediv_nonneg (mul_nonneg (by omega) hgain) (Int.natCast_nonneg _), ?_⟩
  rcases Nat.eq_zero_or_pos (boundary split idx) with hnone | hpos
  · rw [leftLoss, hnone, Nat.cast_zero, Int.ediv_zero]
    exact hgain
  · refine Int.ediv_le_of_le_mul (by omega) ?_
    rw [mul_comm (size - _)]
    exact mul_le_mul_of_nonneg_right (by omega) hgain

include hvalid hn hidx

theorem truncate_left (hexceeds : (boundary split (idx + 1) : ℤ) < movedSize split idx n_move)
    {i : ℕ} (hi : i < idx) : truncate (block_size split i * left_scale split idx n_move) =
      -leftLoss split idx (movedSize split idx n_move) i := by
  have hmono : boundary split i ≤ boundary split (i + 1) :=
    hvalid.boundary_mono (Nat.le_succ i) (by omega)
  have hle : boundary split (i + 1) ≤ boundary split idx := hvalid.boundary_mono hi hidx.le
  have hbounds : movedSize split idx n_move < 2 ^ 63 := (toLong_bounds _).2
  have hrest : toLong (boundary split idx - n_move) =
      -(movedSize split idx n_move - boundary split (idx + 1)) := by
    rw [toLong_sub_move split idx, block_size_eq hvalid hn hidx, toLong_eq (by omega) (by omega)]
    ring
  rw [block_size_eq hvalid hn (by omega), left_scale, left_block_size_eq hvalid hn hidx,
    scale_by_block_num, hrest, leftLoss]
  set gain := movedSize split idx n_move - boundary split (idx + 1)
  split_ifs with hzero
  · have hsize : (boundary split (i + 1) : ℤ) - boundary split i = 0 := by omega
    rw [hsize, zero_mul, Int.zero_ediv]
    simp [truncate]
  · have hfactor : (((boundary split (i + 1) : ℤ) - boundary split i : ℤ) : ℚ) *
        ((-gain : ℤ) / (boundary split idx : ℤ)) =
        -((((boundary split (i + 1) : ℤ) - boundary split i) * gain : ℤ) /
          (boundary split idx : ℤ)) := by
      push_cast
      ring
    rw [hfactor, truncate_neg, truncate_div (mul_nonneg (by omega) (by omega)) (by omega)]

theorem toNat_truncSize_left
    (hexceeds : (boundary split (idx + 1) : ℤ) < movedSize split idx n_move) {i : ℕ}
    (hi : i < idx) : (truncSize (block_size split i * left_scale split idx n_move)).toNat =
      (-leftLoss split idx (movedSize split idx n_move) i % 2 ^ 64).toNat := by
  rw [truncSize, truncate_left hvalid hn hidx hexceeds hi, toNat_ofInt]

theorem toNat_truncSize_left_eq_zero
    (hexceeds : (boundary split (idx + 1) : ℤ) < movedSize split idx n_move) {i : ℕ}
    (hi : i < idx) (hloss : leftLoss split idx (movedSize split idx n_move) i = 0) :
    (truncSize (block_size split i * left_scale split idx n_move)).toNat = 0 := by
  rw [toNat_truncSize_left hvalid hn hidx hexceeds hi, hloss]
  rfl

include hvals

theorem leftFill_valid (hzero : idx ≠ 0) {f : ℕ → ℕ} (hf : ∀ i, 0 ≤ i → i < 0 + idx →
      (truncSize (block_size split i * left_scale split idx n_move)).toNat = f i)
    (hlast : idx + 1 = split.length → ∑ i ∈ Finset.Ico 0 (0 + idx), f i ≤ n)
    (hnext : idx + 1 ≠ split.length → 0 ≤ movedSize split idx n_move ∧
      ((∑ i ∈ Finset.Ico 0 (0 + idx), f i : ℕ) : ℤ) + movedSize split idx n_move ≤
        boundary split (idx + 2)) :
    ValidSplit n (scale_left_block split vals idx n_move) := by
  have hlength : 0 + idx < split.length := by omega
  by_cases hend : idx = vals.length - 1
  · rw [scale_left_block_last hzero hend]
    have htop : 0 + idx + 1 = split.length := by omega
    refine validSplit_fill hlength hf rfl ?_ (fun i hi _ => hvalid.boundary_mono (Nat.le_succ i) hi)
      hvalid.boundary_length
    rw [htop, hvalid.boundary_length]
    exact (Nat.zero_add _).trans_le (hlast (by omega))
  · rw [scale_left_block_of_ne hzero hend]
    obtain ⟨hnonneg, hroom⟩ := hnext (by omega)
    have hle := hvalid.boundary_le (i := idx + 2) (by omega)
    have hoffset : (leftFill split idx n_move split).1.toNat =
        0 + ∑ i ∈ Finset.Ico 0 (0 + idx), f i :=
      fill_offset hf (by rw [UInt64.toNat_zero]; omega)
    have hnew : ((addLong (leftFill split idx n_move split).1
        (movedSize split idx n_move)).toNat : ℤ) =
        (∑ i ∈ Finset.Ico 0 (0 + idx), f i : ℕ) + movedSize split idx n_move := by
      rw [toNat_addLong, hoffset, Nat.zero_add]
      exact Int.emod_eq_of_lt (by omega) (by omega)
    generalize addLong (leftFill split idx n_move split).1 (movedSize split idx n_move) = a
      at hnew ⊢
    have hset : ∀ j, boundary (split.set idx a) (j + 1) =
      if j = idx then a.toNat else boundary split (j + 1) := boundary_set hidx
    rw [leftFill, (fill_set (by omega)).1]
    refine validSplit_fill (by rwa [List.length_set]) hf rfl ?_ ?_ ?_
    · rw [Nat.zero_add idx, hset, if_pos rfl, UInt64.toNat_zero]
      rw [Nat.zero_add idx] at hnew
      omega
    · intro i hi hi'
      rw [List.length_set] at hi
      obtain ⟨j, rfl⟩ := Nat.exists_eq_add_one.mpr (by omega : 0 < i)
      rw [hset, hset, if_neg (by omega : j + 1 ≠ idx)]
      split_ifs with hj
      · have hroom' : a.toNat ≤ boundary split (idx + 2) := by omega
        rw [hj]
        exact hroom'
      · exact hvalid.boundary_mono (Nat.le_succ _) hi
    · obtain ⟨j, hj⟩ := Nat.exists_eq_add_one.mpr (by omega : 0 < split.length)
      rw [List.length_set, hj, hset, if_neg (by omega), ← hj, hvalid.boundary_length]

theorem scale_left_block_valid (hfits : LeftFits split idx (movedSize split idx n_move)) :
    ValidSplit n (scale_left_block split vals idx n_move) := by
  rcases hfits with hzero | ⟨hnonneg, hfits⟩
  · rw [scale_left_block, if_pos hzero]
    exact hvalid
  by_cases hzero : idx = 0
  · rw [scale_left_block, if_pos hzero]
    exact hvalid
  have htop : idx + 1 = split.length → boundary split (idx + 1) = n := fun h =>
    h ▸ hvalid.boundary_length
  have hmono : boundary split idx ≤ boundary split (idx + 1) :=
    hvalid.boundary_mono (Nat.le_succ idx) hidx
  by_cases hroom : movedSize split idx n_move ≤ boundary split (idx + 1)
  · -- the blocks on the left have what is taken from them
    have hle := hvalid.boundary_le (i := idx + 1) hidx
    have hrest : toLong (left_block_size split idx - n_move) =
        boundary split (idx + 1) - movedSize split idx n_move := by
      rw [toLong_sub_move split idx, left_block_size_eq hvalid hn hidx,
        block_size_eq hvalid hn hidx, toLong_eq (by omega) (by omega)]
      ring
    have hleft := left_block_size_eq hvalid hn hidx
    obtain ⟨f, hf, hsum⟩ := exists_scaled_sizes hvalid hn 0 idx (by omega)
      (scale_by_block_num_spec (by omega) hrest (by omega))
      (by rw [hleft, Nat.zero_add]; simp) (by omega)
    refine leftFill_valid hvalid hn hidx hvals hzero hf (fun h => ?_) fun h => ⟨hnonneg, ?_⟩
    · rw [htop h] at hsum
      omega
    · have hnext : boundary split (idx + 1) ≤ boundary split (idx + 2) :=
        hvalid.boundary_mono (Nat.le_succ _) (by omega)
      omega
  · -- they are scaled to nothing
    obtain ⟨hsmall, hnext⟩ := hfits.resolve_left hroom
    have hf : ∀ i, 0 ≤ i → i < 0 + idx →
        (truncSize (block_size split i * left_scale split idx n_move)).toNat = (fun _ => 0) i :=
      fun i _ hi => toNat_truncSize_left_eq_zero hvalid hn hidx (by omega) (by omega)
        (hsmall i (by omega))
    refine leftFill_valid hvalid hn hidx hvals hzero hf (fun _ => by simp) fun h => ⟨hnonneg, ?_⟩
    simpa using hnext.resolve_left h

/-- The first block of which something is taken would end after the last position. -/
theorem leftLoss_eq_zero_of_valid (hzero : idx ≠ 0)
    (hexceeds : (boundary split (idx + 1) : ℤ) < movedSize split idx n_move)
    (h : ValidSplit n (scale_left_block split vals idx n_move)) :
    ∀ i < idx, leftLoss split idx (movedSize split idx n_move) i = 0 := by
  have hbounds : movedSize split idx n_move < 2 ^ 63 := (toLong_bounds _).2
  intro i hi
  induction i using Nat.strong_induction_on with
  | _ i ih =>
    obtain ⟨hnonneg, hle⟩ := leftLoss_bounds hvalid hidx hexceeds hi
    set lost := leftLoss split idx (movedSize split idx n_move) i with hlost
    by_contra hne
    have hf : ∀ j, 0 ≤ j → j ≤ i →
        (truncSize (block_size split j * left_scale split idx n_move)).toNat =
          if j = i then (2 ^ 64 - lost).toNat else 0 := by
      intro j _ hj
      split_ifs with heq
      · rw [heq, toNat_truncSize_left hvalid hn hidx hexceeds hi, ← hlost]
        omega
      · exact toNat_truncSize_left_eq_zero hvalid hn hidx hexceeds (by omega)
          (ih j (by omega) (by omega))
    have hsum : ∑ j ∈ Finset.Ico 0 (i + 1), (if j = i then (2 ^ 64 - lost).toNat else 0) =
        (2 ^ 64 - lost).toNat := by
      rw [Finset.sum_ite_eq', if_pos (by simp)]
    have hposition := boundary_scale_left_block vals hidx hzero hi hf
      (by rw [hsum]; omega)
    have htop := h.boundary_le (i := i + 1) (by rw [length_scale_left_block]; omega)
    rw [hposition, hsum] at htop
    omega

theorem moved_le_of_valid (hzero : idx ≠ 0) (hlast : idx + 1 ≠ split.length)
    (hexceeds : (boundary split (idx + 1) : ℤ) < movedSize split idx n_move)
    (hloss : ∀ i < idx, leftLoss split idx (movedSize split idx n_move) i = 0)
    (h : ValidSplit n (scale_left_block split vals idx n_move)) :
    movedSize split idx n_move ≤ boundary split (idx + 2) := by
  have hbounds : movedSize split idx n_move < 2 ^ 63 := (toLong_bounds _).2
  have hoffset : (leftFill split idx n_move split).1.toNat =
      0 + ∑ j ∈ Finset.Ico 0 (0 + idx), (fun _ => 0) j :=
    fill_offset (fun j _ hj => toNat_truncSize_left_eq_zero hvalid hn hidx hexceeds (by omega)
      (hloss j (by omega))) (by simp)
  have hnew : ((addLong (leftFill split idx n_move split).1
      (movedSize split idx n_move)).toNat : ℤ) = movedSize split idx n_move := by
    rw [toNat_addLong, hoffset, Finset.sum_const_zero]
    exact (Int.emod_eq_of_lt (by omega) (by omega)).trans (by simp)
  have hmono := h.boundary_mono (Nat.le_succ (idx + 1)) (by rw [length_scale_left_block]; omega)
  have hlength : (leftFill split idx n_move split).2.length = split.length := length_fill ..
  have hkeep : boundary (leftFill split idx n_move split).2 (idx + 1 + 1) =
      boundary split (idx + 2) := boundary_fill_of_not_mem (Or.inr (by omega))
  rw [Nat.succ_eq_add_one, scale_left_block_of_ne hzero (by omega), boundary_set (by omega),
    boundary_set (by omega), if_pos rfl, if_neg (by omega), hkeep] at hmono
  omega

theorem leftFits_of_valid (hnonneg : 0 ≤ movedSize split idx n_move)
    (h : ValidSplit n (scale_left_block split vals idx n_move)) :
    LeftFits split idx (movedSize split idx n_move) := by
  by_cases hzero : idx = 0
  · exact Or.inl hzero
  refine Or.inr ⟨hnonneg, ?_⟩
  rcases le_or_gt (movedSize split idx n_move) (boundary split (idx + 1)) with hroom | hexceeds
  · exact Or.inl hroom
  have hloss := leftLoss_eq_zero_of_valid hvalid hn hidx hvals hzero hexceeds h
  refine Or.inr ⟨hloss, ?_⟩
  by_cases hlast : idx + 1 = split.length
  · exact Or.inl hlast
  · exact Or.inr (moved_le_of_valid hvalid hn hidx hvals hzero hlast hexceeds hloss h)

end Left

section Step

variable (long : LongCast) (n : ℕ) (split : List UInt64) (vals : List ℤ)

/-- The size to which the block is to be scaled whose value is farthest from the average. -/
def scaledSize : ℤ :=
  movedSize split (max_val_diff_block_idx vals)
    (stepMove long split vals)

/-- The blocks on the side that is chosen have room for the block that is scaled. -/
def StepFits : Prop :=
  sum_abs_diff_to_ave vals < sumInt vals * TIME_DIFF_THRES ∨
    ∀ left, balance_left long split vals (max_val_diff_block_idx vals)
      (stepMove long split vals) = some left →
        if left then LeftFits split (max_val_diff_block_idx vals) (scaledSize long split vals)
        else RightFits n split (max_val_diff_block_idx vals) (scaledSize long split vals)

/-- The size of the block is a number of type `long`, so that its conversion is specified. -/
def SizeSpecified : Prop :=
  ∀ scale, scale_to_ave long vals (max_val_diff_block_idx vals) FIX_RATE = some scale →
    toLong (truncate (block_size split (max_val_diff_block_idx vals) * scale)) =
      truncate (block_size split (max_val_diff_block_idx vals) * scale)

variable {long n split vals}

theorem max_val_diff_block_idx_lt (hne : vals ≠ []) :
    max_val_diff_block_idx vals < vals.length := by
  have hrun : ∀ (is : List ℕ) (st : ℤ × ℕ), st.2 < vals.length → (∀ i ∈ is, i < vals.length) →
      (is.foldl (fun (st : ℤ × ℕ) sg_idx =>
        let diff := block_diff_to_ave vals sg_idx
        if |st.1| < |diff| then (diff, sg_idx) else st) st).2 < vals.length := by
    intro is
    induction is with
    | nil => exact fun st hst _ => hst
    | cons i is ih =>
      intro st hst his
      refine ih _ ?_ fun j hj => his j (List.mem_cons_of_mem _ hj)
      dsimp only
      split_ifs
      · exact his i List.mem_cons_self
      · exact hst
  exact hrun _ _ (List.length_pos_iff.mpr hne) fun i hi => List.mem_range.mp hi

theorem length_le_of_est_vals {new_split : List UInt64} {est_vals : List ℤ}
    (h : est_vals_scale_block long split vals new_split = some est_vals) :
    split.length ≤ vals.length := by
  by_contra hlt
  have hsome := isSome_of_mapM h (List.mem_range.mpr (not_le.mp hlt))
  simp at hsome

theorem length_le_of_balance_left {idx : ℕ} {n_move : ℤ} {left : Bool}
    (h : balance_left long split vals idx n_move = some left) : split.length ≤ vals.length := by
  obtain ⟨est_vals, hest, -⟩ := Option.bind_eq_some_iff.mp h
  exact length_le_of_est_vals hest

theorem exists_est_max (long : LongCast) (hne : split ≠ []) (hvals : vals.length = split.length)
    (new_split : List UInt64) :
    ∃ est_vals est_max, est_vals_scale_block long split vals new_split = some est_vals ∧
      est_vals.max? = some est_max := by
  obtain ⟨est_vals, hest⟩ : ∃ est_vals,
      est_vals_scale_block long split vals new_split = some est_vals := by
    refine mapM_of_forall_some fun i hi => ?_
    rw [List.mem_range] at hi
    simp [hvals, hi]
  have hlength : est_vals.length = split.length := by
    have hmap := congrArg List.length (mapM_eq_some_iff.mp hest)
    simpa using hmap.symm
  have hne' : est_vals ≠ [] := by
    rintro rfl
    exact hne (List.eq_nil_of_length_eq_zero hlength.symm)
  obtain ⟨est_max, hmax⟩ := Option.isSome_iff_exists.mp (List.isSome_max?_of_ne_nil hne')
  exact ⟨est_vals, est_max, hest, hmax⟩

theorem exists_balance_left (long : LongCast) (hne : split ≠ [])
    (hvals : vals.length = split.length) (idx : ℕ) (n_move : ℤ) :
    ∃ left, balance_left long split vals idx n_move = some left := by
  obtain ⟨est_left, max_left, hleft, hmax_left⟩ :=
    exists_est_max long hne hvals (scale_left_block split vals idx n_move)
  obtain ⟨est_right, max_right, hright, hmax_right⟩ :=
    exists_est_max long hne hvals (scale_right_block split vals idx n_move)
  simp [balance_left, hleft, hmax_left, hright, hmax_right]

/-- What a step can do. -/
theorem doBalanceSplitVariance_cases {res : List UInt64} {stop : Bool}
    (h : doBalanceSplitVariance long split vals = some (res, stop)) : vals ≠ [] ∧
    (sum_abs_diff_to_ave vals < sumInt vals * TIME_DIFF_THRES ∧ res = split ∧ stop = true ∨
    ¬ sum_abs_diff_to_ave vals < sumInt vals * TIME_DIFF_THRES ∧ stop = false ∧
      max_val_diff_block_idx vals < split.length ∧
      ∃ left, balance_left long split vals (max_val_diff_block_idx vals)
          (stepMove long split vals) = some left ∧
        res = if left then
          scale_left_block split vals (max_val_diff_block_idx vals) (stepMove long split vals)
        else
          scale_right_block split vals (max_val_diff_block_idx vals)
            (stepMove long split vals)) := by
  obtain ⟨hne, h⟩ := of_guard_bind h
  refine ⟨hne, ?_⟩
  dsimp only at h
  split_ifs at h with hstop
  · obtain ⟨rfl, rfl⟩ := Prod.mk.inj (Option.some.inj h)
    exact Or.inl ⟨hstop, rfl, rfl⟩
  · obtain ⟨hidx, h⟩ := of_guard_bind h
    obtain ⟨new_split, hnew, h⟩ := Option.bind_eq_some_iff.mp h
    obtain ⟨rfl, rfl⟩ := Prod.mk.inj (Option.some.inj h)
    obtain ⟨left, hleft, hnew⟩ := Option.bind_eq_some_iff.mp hnew
    refine Or.inr ⟨hstop, rfl, hidx, left, hleft, ?_⟩
    cases left with
    | false =>
      simp only [Bool.false_eq_true, if_false, Option.pure_def, Option.some.injEq] at hnew ⊢
      exact hnew.symm
    | true =>
      simp only [if_true, Option.pure_def, Option.some.injEq] at hnew ⊢
      exact hnew.symm

theorem doBalanceSplitVariance_isSome (long : LongCast) (hne : split ≠ [])
    (hvals : vals.length = split.length) :
    (doBalanceSplitVariance long split vals).isSome := by
  have hvals_ne : vals ≠ [] := by
    rintro rfl
    exact hne (List.eq_nil_of_length_eq_zero hvals.symm)
  have hidx := max_val_diff_block_idx_lt hvals_ne
  obtain ⟨left, hleft⟩ := exists_balance_left long hne hvals
    (max_val_diff_block_idx vals) (stepMove long split vals)
  unfold doBalanceSplitVariance
  rw [guard, if_pos hvals_ne, Option.bind_eq_bind]
  dsimp only [Option.pure_def, Option.bind_some]
  split_ifs
  · rfl
  · rw [guard, if_pos (hvals ▸ hidx), balance_blocks, hleft]
    cases left <;> rfl

theorem length_of_doBalanceSplitVariance {res : List UInt64} {stop : Bool}
    (h : doBalanceSplitVariance long split vals = some (res, stop)) :
    res.length = split.length := by
  obtain ⟨-, ⟨-, rfl, -⟩ | ⟨-, -, -, left, -, rfl⟩⟩ := doBalanceSplitVariance_cases h
  · rfl
  · split_ifs
    · exact length_scale_left_block
    · exact length_scale_right_block

theorem length_vals_of_step {res : List UInt64}
    (h : doBalanceSplitVariance long split vals = some (res, false)) :
    split.length ≤ vals.length := by
  obtain ⟨-, ⟨-, -, hstop⟩ | ⟨-, -, -, left, hleft, -⟩⟩ := doBalanceSplitVariance_cases h
  · exact absurd hstop nofun
  · exact length_le_of_balance_left hleft

theorem scaledSize_eq : scaledSize long split vals =
    long.cast ((scale_to_ave long vals (max_val_diff_block_idx vals) FIX_RATE).map
      (block_size split (max_val_diff_block_idx vals) * ·)) := by
  rw [scaledSize, movedSize, stepMove, blocks_to_move, blocks_to_move_by_scale, toLong, toLong,
    Int.add_bmod_bmod, add_sub_cancel, ← toLong, long.toLong_cast]

theorem toLong_truncate {x : ℚ} (hx : 0 ≤ x) (hlt : x < 2 ^ 63) :
    toLong (truncate x) = truncate x := by
  have hle := (truncate_le hx).trans_lt hlt
  have hnonneg := truncate_nonneg hx
  refine toLong_eq (by omega) ?_
  exact_mod_cast hle

theorem average_bounds (hvals : 2 ≤ vals.length) : 0 ≤ average vals ∧ average vals < 2 ^ 63 := by
  have hnonneg : 0 ≤ sumInt vals % 2 ^ 64 / vals.length := Int.ediv_nonneg (by omega) (by omega)
  have hlt : sumInt vals % 2 ^ 64 / vals.length < 2 ^ 63 :=
    Int.ediv_lt_of_lt_mul (by omega) (by omega)
  rw [average, toLong_eq (by omega) hlt]
  exact ⟨hnonneg, hlt⟩

theorem scaled_val_nonneg (long : LongCast) (hpos : ∀ val ∈ vals, 0 < val ∧ val ≤ LONG_MAX)
    (hvals : 2 ≤ vals.length) {idx : ℕ} (hidx : idx < vals.length) :
    0 ≤ long.cast (some (vals.getD idx 0 + block_diff_to_ave vals idx * FIX_RATE)) := by
  obtain ⟨hval, hle⟩ : 0 < vals.getD idx 0 ∧ vals.getD idx 0 ≤ LONG_MAX := by
    rw [List.getD_eq_getElem?_getD, List.getElem?_eq_getElem hidx]
    exact hpos _ (List.getElem_mem hidx)
  obtain ⟨hnonneg_ave, hlt_ave⟩ := average_bounds hvals
  rw [block_diff_to_ave]
  unfold LONG_MAX at hle
  generalize vals.getD idx 0 = val at hval hle
  generalize average vals = ave at hnonneg_ave hlt_ave
  rw [toLong_eq (by omega) (by omega)]
  have hval' : (0 : ℚ) ≤ val ∧ (val : ℚ) < 2 ^ 63 := ⟨by exact_mod_cast hval.le, by
    exact_mod_cast (by omega : val < 2 ^ 63)⟩
  have hcast_ave : (0 : ℚ) ≤ ave ∧ (ave : ℚ) < 2 ^ 63 := ⟨by exact_mod_cast hnonneg_ave, by
    exact_mod_cast hlt_ave⟩
  have hx : (val : ℚ) + (ave - val : ℤ) * FIX_RATE = (9 * val + ave) / 10 := by
    unfold FIX_RATE
    push_cast
    ring
  have hnonneg : (0 : ℚ) ≤ (9 * val + ave) / 10 := by linarith
  rw [hx, long.cast_eq _ (toLong_truncate hnonneg (by linarith))]
  exact truncate_nonneg hnonneg

theorem scaledSize_nonneg (hvalid : ValidSplit n split) (hn : n < 2 ^ 63)
    (hvals : vals.length = split.length) (hpos : ∀ val ∈ vals, 0 < val ∧ val ≤ LONG_MAX)
    (hspecified : SizeSpecified long split vals) :
    0 ≤ scaledSize long split vals ∨ split.length = 1 := by
  by_cases hone : split.length = 1
  · exact Or.inr hone
  refine Or.inl ?_
  have hlength := List.length_pos_iff.mpr hvalid.ne_nil
  have hidx := max_val_diff_block_idx_lt (List.length_pos_iff.mp (hvals ▸ hlength))
  have hscaled := scaled_val_nonneg long hpos (by omega) hidx
  have hval : 0 < vals.getD (max_val_diff_block_idx vals) 0 := by
    rw [List.getD_eq_getElem?_getD, List.getElem?_eq_getElem hidx]
    exact (hpos _ (List.getElem_mem hidx)).1
  have hscale : scale_to_ave long vals (max_val_diff_block_idx vals) FIX_RATE = some _ :=
    if_neg hval.ne'
  have hmono : boundary split (max_val_diff_block_idx vals) ≤
      boundary split (max_val_diff_block_idx vals + 1) :=
    hvalid.boundary_mono (Nat.le_succ _) (hvals ▸ hidx)
  have hsize : 0 ≤ block_size split (max_val_diff_block_idx vals) := by
    rw [block_size_eq hvalid hn (hvals ▸ hidx)]
    omega
  rw [scaledSize_eq, hscale, Option.map_some, long.cast_eq _ (hspecified _ hscale)]
  refine truncate_nonneg (mul_nonneg ?_ (div_nonneg ?_ ?_))
  · exact_mod_cast hsize
  · exact_mod_cast hscaled
  · exact_mod_cast hval.le

section Valid

variable (hvalid : ValidSplit n split) (hn : n < 2 ^ 63) (hvals : vals.length = split.length)
include hvalid hn hvals

theorem doBalanceSplitVariance_valid {res : List UInt64} {stop : Bool}
    (hfits : StepFits long n split vals)
    (h : doBalanceSplitVariance long split vals = some (res, stop)) : ValidSplit n res := by
  obtain ⟨-, ⟨-, rfl, -⟩ | ⟨hgo, -, hidx, left, hleft, rfl⟩⟩ := doBalanceSplitVariance_cases h
  · exact hvalid
  · have hside := hfits.resolve_left hgo left hleft
    split_ifs at hside ⊢
    · exact scale_left_block_valid hvalid hn hidx hvals hside
    · exact scale_right_block_valid hvalid hn hidx hvals hside

theorem stepFits_of_valid {res : List UInt64} {stop : Bool}
    (hnonneg : 0 ≤ scaledSize long split vals ∨ split.length = 1)
    (h : doBalanceSplitVariance long split vals = some (res, stop)) (hres : ValidSplit n res) :
    StepFits long n split vals := by
  obtain ⟨-, ⟨hstop, -, -⟩ | ⟨-, -, hidx, left, hleft, rfl⟩⟩ := doBalanceSplitVariance_cases h
  · exact Or.inl hstop
  · refine Or.inr fun left' hleft' => ?_
    obtain rfl := Option.some.inj (hleft.symm.trans hleft')
    split_ifs at hres ⊢
    · rcases hnonneg with hnonneg | hone
      · exact leftFits_of_valid hvalid hn hidx hvals hnonneg hres
      · exact Or.inl (by omega)
    · exact rightFits_of_valid hvalid hn hidx hvals hres

end Valid

end Step

end Rannc
