import Rannc.Lib.OptionFold
import Rannc.Lib.Views
import Mathlib.Data.List.GetD

/-!
# Aligning the rows of a tensor

A tensor is a view of the rows of a storage. It is cut or padded to a number of rows; the padding
repeats the rows of the tensor, or should consist of zeros. Padding pieces are views of the tensor
itself until they are put together.
-/
namespace Rannc

variable {R : Type} [Zero R]

section PadTensor

variable (tensor : View) (batch_size : ℤ) (zero : Bool)

/-- The loop runs while rows are missing; it is out of fuel when it does not end. -/
def padLoop : ℕ → Heap R → ℕ → List View → Option (Heap R × List View)
  | 0, _, _, _ => none
  | fuel + 1, h, current_size, targets =>
    if current_size < batch_size then
      let pad_size := (min (tensor.size : ℤ) (batch_size - current_size)).toNat
      let pad := if tensor.size = pad_size then tensor else tensor.slice 0 pad_size
      let h := if zero then h.fill pad 0 else h
      padLoop fuel h (current_size + pad_size) (targets ++ [pad])
    else some (h, targets)

def padTensor (fuel : ℕ) (h : Heap R) : Option (View × Heap R) := do
  let (h, targets) ← padLoop tensor batch_size zero fuel h 0 []
  guard (targets ≠ [])
  return h.alloc (targets.flatMap h.rows)

def unpadTensor : View :=
  if tensor.size > batch_size then tensor.slice 0 batch_size else tensor

def alignTensor (fuel : ℕ) (h : Heap R) : Option (View × Heap R) :=
  if tensor.size > batch_size then some (unpadTensor tensor batch_size, h)
  else if tensor.size < batch_size then padTensor tensor batch_size zero fuel h
  else some (tensor, h)

end PadTensor

/-- The rows of a list from position `first` on, when it is repeated without end. -/
def cyclic (l : List R) (first len : ℕ) : List R :=
  (List.range' first len).map fun i => l.getD (i % l.length) 0

theorem length_cyclic (l : List R) (first len : ℕ) : (cyclic l first len).length = len := by
  rw [cyclic, List.length_map, List.length_range']

theorem cyclic_add (l : List R) (first m n : ℕ) :
    cyclic l first (m + n) = cyclic l first m ++ cyclic l (first + m) n := by
  rw [cyclic, cyclic, cyclic, ← List.map_append, List.range'_append_1]

theorem cyclic_eq_take {l : List R} {first n : ℕ} (hfirst : l.length ∣ first)
    (hn : n ≤ l.length) : cyclic l first n = l.take n := by
  apply List.ext_getElem
  · rw [length_cyclic, List.length_take, min_eq_left hn]
  · intro j hj hj'
    rw [length_cyclic] at hj
    obtain ⟨k, rfl⟩ := hfirst
    have hmod : (l.length * k + j) % l.length = j := by
      rw [Nat.mul_add_mod, Nat.mod_eq_of_lt (by omega)]
    have hjl : j < l.length := by omega
    simp only [cyclic, List.getElem_map, List.getElem_range', Nat.one_mul, hmod,
      List.getElem_take, List.getD_eq_getElem l 0 hjl]

theorem take_cyclic {l : List R} {n : ℕ} (hn : l.length ≤ n) :
    (cyclic l 0 n).take l.length = l := by
  have hwhole : cyclic l 0 l.length = l := by
    rw [cyclic_eq_take (dvd_zero _) le_rfl, List.take_length]
  rw [← Nat.add_sub_cancel' hn, cyclic_add, hwhole, List.take_left]

theorem getElem?_cyclic {l : List R} (hl : 0 < l.length) {n i : ℕ} (hi : i < n) :
    (cyclic l 0 n)[i]? = l[i % l.length]? := by
  have hmod : i % l.length < l.length := Nat.mod_lt i hl
  have hi' : i < (cyclic l 0 n).length := by rwa [length_cyclic]
  rw [List.getElem?_eq_getElem hi', List.getElem?_eq_getElem hmod]
  simp only [cyclic, List.getElem_map, List.getElem_range', Nat.one_mul, Nat.zero_add,
    List.getD_eq_getElem _ _ hmod]

section Loop

variable {tensor : View} {b : ℕ} {zero : Bool}

theorem padLoop_succ {fuel : ℕ} {h : Heap R} {current_size : ℕ} {targets : List View}
    (hlt : current_size < b) :
    padLoop tensor b zero (fuel + 1) h current_size targets =
      padLoop tensor b zero fuel
        (if zero = true then h.fill ⟨tensor.storage, tensor.offset,
          min tensor.size (b - current_size)⟩ 0 else h)
        (current_size + min tensor.size (b - current_size))
        (targets ++ [⟨tensor.storage, tensor.offset, min tensor.size (b - current_size)⟩]) := by
  have hlt' : (current_size : ℤ) < b := by exact_mod_cast hlt
  have hpad : (min (tensor.size : ℤ) (b - current_size)).toNat =
      min tensor.size (b - current_size) := by omega
  have hview : (if tensor.size = min tensor.size (b - current_size) then tensor
      else tensor.slice 0 (min tensor.size (b - current_size) : ℕ)) =
        ⟨tensor.storage, tensor.offset, min tensor.size (b - current_size)⟩ := by
    split_ifs with heq
    · rw [← heq]
    · exact View.slice_zero (min_le_left _ _)
  rw [padLoop, if_pos hlt']
  dsimp only
  rw [hpad, hview]

theorem padLoop_done {fuel : ℕ} {h : Heap R} {current_size : ℕ} {targets : List View}
    (hle : b ≤ current_size) :
    padLoop tensor b zero (fuel + 1) h current_size targets = some (h, targets) := by
  rw [padLoop, if_neg]
  exact_mod_cast not_lt.mpr hle

/-- What the pieces show, in any heap, are the rows that were missing. -/
theorem padLoop_targets {fuel : ℕ} {h h' : Heap R} {current_size : ℕ} {targets targets' : List View}
    (hstart : tensor.size ∣ current_size ∨ b ≤ current_size)
    (hloop : padLoop tensor b zero fuel h current_size targets = some (h', targets')) :
    ∃ pads, targets' = targets ++ pads ∧ (current_size < b → pads ≠ []) ∧
      ∀ g : Heap R, (g.rows tensor).length = tensor.size →
        pads.flatMap g.rows = cyclic (g.rows tensor) current_size (b - current_size) := by
  induction fuel generalizing h current_size targets with
  | zero => cases hloop
  | succ fuel ih =>
    by_cases hlt : current_size < b
    · rw [padLoop_succ hlt] at hloop
      set pad_size := min tensor.size (b - current_size) with hpad
      have hdvd : tensor.size ∣ current_size := hstart.resolve_right (not_le.mpr hlt)
      have hnext : tensor.size ∣ current_size + pad_size ∨ b ≤ current_size + pad_size := by
        rcases min_choice tensor.size (b - current_size) with heq | heq
        · left
          rw [hpad, heq]
          exact (Nat.dvd_add_self_right).mpr hdvd
        · right
          omega
      obtain ⟨pads, rfl, _, hpads⟩ := ih hnext hloop
      refine ⟨_ :: pads, by rw [List.append_assoc, List.singleton_append], fun _ => by simp, ?_⟩
      intro g hg
      have hsize : b - current_size = pad_size + (b - (current_size + pad_size)) := by omega
      rw [List.flatMap_cons, hpads g hg, hsize, cyclic_add]
      congr 1
      rw [Heap.rows_prefix (min_le_left _ _), cyclic_eq_take (hg.symm ▸ hdvd)]
      rw [hg]
      exact min_le_left _ _
    · rw [padLoop_done (not_lt.mp hlt)] at hloop
      obtain ⟨rfl, rfl⟩ := Prod.mk.inj (Option.some.inj hloop)
      refine ⟨[], (List.append_nil _).symm, fun hlt' => absurd hlt' hlt, fun g _ => ?_⟩
      rw [Nat.sub_eq_zero_of_le (not_lt.mp hlt)]
      rfl

theorem padLoop_heap {fuel : ℕ} {h h' : Heap R} {current_size : ℕ} {targets targets' : List View}
    (hloop : padLoop tensor b false fuel h current_size targets = some (h', targets')) :
    h' = h := by
  induction fuel generalizing current_size targets with
  | zero => cases hloop
  | succ fuel ih =>
    by_cases hlt : current_size < b
    · rw [padLoop_succ hlt] at hloop
      exact ih hloop
    · rw [padLoop_done (not_lt.mp hlt)] at hloop
      exact (Prod.mk.inj (Option.some.inj hloop)).1.symm

theorem padLoop_zeros {fuel : ℕ} {h h' : Heap R} {current_size : ℕ} {targets targets' : List View}
    (hv : h.Valid tensor) (hrows : h.rows tensor = List.replicate tensor.size 0)
    (hloop : padLoop tensor b true fuel h current_size targets = some (h', targets')) :
    h'.Valid tensor ∧ h'.rows tensor = List.replicate tensor.size 0 := by
  induction fuel generalizing h current_size targets with
  | zero => cases hloop
  | succ fuel ih =>
    by_cases hlt : current_size < b
    · rw [padLoop_succ hlt, if_pos rfl] at hloop
      have hle : min tensor.size (b - current_size) ≤ tensor.size := min_le_left _ _
      apply ih (hv.fill (hv.slice hle) 0) _ hloop
      rw [hv.rows_fill_prefix hle, hrows, List.drop_replicate, List.replicate_append_replicate]
      congr 1
      omega
    · rw [padLoop_done (not_lt.mp hlt)] at hloop
      obtain ⟨rfl, rfl⟩ := Prod.mk.inj (Option.some.inj hloop)
      exact ⟨hv, hrows⟩

theorem padLoop_zero {fuel : ℕ} {h h' : Heap R} {targets targets' : List View}
    (hv : h.Valid tensor) (hlt : tensor.size < b)
    (hloop : padLoop tensor b true fuel h 0 targets = some (h', targets')) :
    h'.Valid tensor ∧ h'.rows tensor = List.replicate tensor.size 0 := by
  cases fuel with
  | zero => cases hloop
  | succ fuel =>
    rw [padLoop_succ (by omega), if_pos rfl, Nat.sub_zero, min_eq_left hlt.le] at hloop
    apply padLoop_zeros (hv.fill hv 0) _ hloop
    rw [hv.rows_fill_prefix le_rfl, List.drop_of_length_le hv.length_rows.le, List.append_nil]

theorem padLoop_isSome (hsize : 0 < tensor.size) {fuel : ℕ} {h : Heap R} {current_size : ℕ}
    {targets : List View} (hfuel : b - current_size < fuel) :
    (padLoop tensor b zero fuel h current_size targets).isSome := by
  induction fuel generalizing h current_size targets with
  | zero => omega
  | succ fuel ih =>
    by_cases hlt : current_size < b
    · rw [padLoop_succ hlt]
      apply ih
      omega
    · rw [padLoop_done (not_lt.mp hlt)]
      rfl

theorem padLoop_eq_none (hsize : tensor.size = 0) {fuel : ℕ} {h : Heap R} {current_size : ℕ}
    {targets : List View} (hlt : current_size < b) :
    padLoop tensor b zero fuel h current_size targets = none := by
  induction fuel generalizing h current_size targets with
  | zero => rfl
  | succ fuel ih =>
    rw [padLoop_succ hlt]
    apply ih
    omega

end Loop

section Align

variable {tensor : View} {h : Heap R}

/-- The loop of the padding ends unless rows have to be made from no rows. -/
theorem alignTensor_isSome_iff (tensor : View) (batch_size : ℤ) (zero : Bool) (h : Heap R) :
    (∃ fuel, (alignTensor tensor batch_size zero fuel h).isSome) ↔
      0 < tensor.size ∨ batch_size ≤ 0 := by
  unfold alignTensor
  by_cases hgt : (tensor.size : ℤ) > batch_size
  · simp only [if_pos hgt]
    refine iff_of_true ⟨0, rfl⟩ ?_
    omega
  · simp only [if_neg hgt]
    by_cases hlt : (tensor.size : ℤ) < batch_size
    · simp only [if_pos hlt]
      obtain ⟨b, rfl⟩ : ∃ b : ℕ, batch_size = b := ⟨batch_size.toNat, by omega⟩
      have hlt' : tensor.size < b := by exact_mod_cast hlt
      cases Nat.eq_zero_or_pos tensor.size with
      | inl hzero =>
        refine iff_of_false ?_ (by omega)
        rintro ⟨fuel, hsome⟩
        rw [padTensor, padLoop_eq_none hzero (by omega)] at hsome
        cases hsome
      | inr hpos =>
        refine iff_of_true ⟨b + 1, ?_⟩ (Or.inl hpos)
        have hsome : (padLoop tensor b zero (b + 1) h 0 []).isSome :=
          padLoop_isSome hpos (by omega)
        obtain ⟨⟨h', targets⟩, hloop⟩ := Option.isSome_iff_exists.mp hsome
        obtain ⟨pads, rfl, hne, _⟩ := padLoop_targets (Or.inl (dvd_zero _)) hloop
        have hguard : targets ≠ [] := hne (by omega)
        simp only [padTensor, Option.bind_eq_bind]
        rw [hloop, Option.bind_some, guard, if_pos hguard]
        rfl
    · simp only [if_neg hlt]
      refine iff_of_true ⟨0, rfl⟩ ?_
      omega

variable {b : ℕ} {zero : Bool} {fuel : ℕ} {r : View} {h' : Heap R}

/-- The padded tensor, from the heap that the loop leaves. -/
theorem padTensor_spec (hv : h.Valid tensor) (hlt : tensor.size < b)
    (hpad : padTensor tensor b zero fuel h = some (r, h')) :
    ∃ h₁ : Heap R, h₁.Valid tensor ∧ (zero = false → h₁ = h) ∧
      (zero = true → h₁.rows tensor = List.replicate tensor.size 0) ∧
      h'.rows r = cyclic (h₁.rows tensor) 0 b ∧ h'.rows tensor = h₁.rows tensor ∧ r.size = b := by
  obtain ⟨⟨h₁, targets⟩, hloop, hend⟩ := Option.bind_eq_some_iff.mp hpad
  replace hend := (of_guard_bind hend).2
  obtain ⟨pads, rfl, _, hpads⟩ := padLoop_targets (Or.inl (dvd_zero _)) hloop
  have hheap : h₁.Valid tensor ∧ (zero = false → h₁ = h) ∧
      (zero = true → h₁.rows tensor = List.replicate tensor.size 0) := by
    cases zero with
    | false =>
      obtain rfl := padLoop_heap hloop
      exact ⟨hv, fun _ => rfl, fun hzero => by cases hzero⟩
    | true =>
      have hzeros := padLoop_zero hv hlt hloop
      exact ⟨hzeros.1, (fun hzero => by cases hzero), fun _ => hzeros.2⟩
  have hrows := hpads h₁ hheap.1.length_rows
  rw [Nat.sub_zero] at hrows
  have hlen : (targets.flatMap h₁.rows).length = b := by
    rw [hrows, length_cyclic]
  obtain rfl := (Prod.mk.inj (Option.some.inj hend)).1
  obtain rfl := (Prod.mk.inj (Option.some.inj hend)).2
  refine ⟨h₁, hheap.1, hheap.2.1, hheap.2.2, ?_, ?_, hlen⟩
  · exact (Heap.rows_alloc_self _).trans hrows
  · exact Heap.rows_alloc_of_lt hheap.1.storage _

theorem alignTensor_cut (hlt : b < tensor.size) :
    alignTensor tensor b zero fuel h = some (⟨tensor.storage, tensor.offset, b⟩, h) := by
  have hgt : (tensor.size : ℤ) > b := by exact_mod_cast hlt
  rw [alignTensor, if_pos hgt, unpadTensor, if_pos hgt, View.slice_zero hlt.le]

theorem alignTensor_same (heq : tensor.size = b) :
    alignTensor tensor b zero fuel h = some (tensor, h) := by
  rw [alignTensor, if_neg (by omega), if_neg (by omega)]

theorem alignTensor_pad (hlt : tensor.size < b) :
    alignTensor tensor b zero fuel h = padTensor tensor b zero fuel h := by
  rw [alignTensor, if_neg (by omega), if_pos (by exact_mod_cast hlt)]

variable (tensor b zero h)

/-- The result has the number of rows, and the rows after those of the tensor are the padding. -/
structure Padded (r : View) (h' : Heap R) : Prop where
  length : (h'.rows r).length = b
  rest : ∀ i, tensor.size ≤ i → i < b →
    (h'.rows r)[i]? = if zero = true then some 0 else (h.rows tensor)[i % tensor.size]?

/-- The result starts with the rows of the tensor, and these stay as they are. -/
structure Kept (r : View) (h' : Heap R) : Prop where
  first : (h'.rows r).take (min tensor.size b) = (h.rows tensor).take (min tensor.size b)
  input : h'.rows tensor = h.rows tensor

/-- Aligning the result to the number of rows of the tensor gives the tensor. -/
structure Returns (r : View) (h' : Heap R) : Prop where
  ends : ∀ zero', ∃ fuel, (alignTensor r tensor.size zero' fuel h').isSome
  rows : ∀ zero' fuel r' h'', alignTensor r tensor.size zero' fuel h' = some (r', h'') →
    h''.rows r' = h.rows tensor

variable {tensor b zero h}

/-- A tensor is cut to its first rows or padded. It keeps its rows and gives them to the result
unless it is padded with zeros, and can be got back unless rows were cut off. -/
theorem alignTensor_spec (hv : h.Valid tensor) (hsize : 0 < tensor.size) :
    (∃ fuel, (alignTensor tensor b zero fuel h).isSome) ∧
      ∀ fuel r h', alignTensor tensor b zero fuel h = some (r, h') →
        Padded tensor h b zero r h' ∧
        (zero = false ∨ b ≤ tensor.size → Kept tensor h b r h') ∧
        (zero = false ∨ b = tensor.size → tensor.size ≤ b → Returns tensor h r h') := by
  refine ⟨(alignTensor_isSome_iff tensor b zero h).mpr (Or.inl hsize), ?_⟩
  intro fuel r h' halign
  rcases lt_trichotomy b tensor.size with hlt | heq | hgt
  · rw [alignTensor_cut hlt] at halign
    obtain ⟨rfl, rfl⟩ := Prod.mk.inj (Option.some.inj halign)
    have hrows : h.rows ⟨tensor.storage, tensor.offset, b⟩ = (h.rows tensor).take b :=
      Heap.rows_prefix hlt.le
    refine ⟨⟨?_, ?_⟩, fun _ => ⟨?_, rfl⟩, ?_⟩
    · rw [hrows, List.length_take, hv.length_rows, min_eq_left hlt.le]
    · omega
    · rw [min_eq_right hlt.le, hrows, List.take_take, min_self]
    · omega
  · rw [alignTensor_same heq.symm] at halign
    obtain ⟨rfl, rfl⟩ := Prod.mk.inj (Option.some.inj halign)
    refine ⟨⟨hv.length_rows.trans heq.symm, ?_⟩, fun _ => ⟨rfl, rfl⟩, fun _ _ => ⟨?_, ?_⟩⟩
    · omega
    · intro zero'
      exact ⟨0, by rw [alignTensor_same rfl]; rfl⟩
    · intro zero' fuel' r' h'' hback
      rw [alignTensor_same rfl] at hback
      obtain ⟨rfl, rfl⟩ := Prod.mk.inj (Option.some.inj hback)
      rfl
  · rw [alignTensor_pad hgt] at halign
    obtain ⟨h₁, hv₁, hkept, hzeros, hrows, hinput, hrsize⟩ := padTensor_spec hv hgt halign
    have hlen₁ : (h₁.rows tensor).length = tensor.size := hv₁.length_rows
    have hrest : ∀ i < b, (h'.rows r)[i]? = (h₁.rows tensor)[i % tensor.size]? := by
      intro i hi
      rw [hrows, getElem?_cyclic (hlen₁.symm ▸ hsize) hi, hlen₁]
    have hfirst : (h'.rows r).take tensor.size = h₁.rows tensor := by
      have htake := take_cyclic (hlen₁.le.trans hgt.le)
      rwa [← hrows, hlen₁] at htake
    refine ⟨⟨?_, ?_⟩, ?_, ?_⟩
    · rw [hrows, length_cyclic]
    · intro i _ hi
      rw [hrest i hi]
      cases zero with
      | false => rw [hkept rfl, if_neg Bool.false_ne_true]
      | true =>
        rw [hzeros rfl, if_pos rfl, List.getElem?_replicate_of_lt (Nat.mod_lt i hsize)]
    · intro hcase
      have hzero : zero = false := hcase.resolve_right (not_le.mpr hgt)
      refine ⟨?_, ?_⟩
      · rw [min_eq_left hgt.le, hfirst, hkept hzero, List.take_of_length_le hv.length_rows.le]
      · rw [hinput, hkept hzero]
    · intro hcase _
      have hzero : zero = false := hcase.resolve_right (ne_of_gt hgt)
      have hcut : tensor.size < r.size := by rwa [hrsize]
      refine ⟨?_, ?_⟩
      · intro zero'
        exact ⟨0, by rw [alignTensor_cut hcut]; rfl⟩
      · intro zero' fuel' r' h'' hback
        rw [alignTensor_cut hcut] at hback
        obtain ⟨rfl, rfl⟩ := Prod.mk.inj (Option.some.inj hback)
        rw [Heap.rows_prefix hcut.le, hfirst, hkept hzero]

theorem alignTensor_zero_pad (hv : h.Valid tensor) (hlt : tensor.size < b)
    (halign : alignTensor tensor b true fuel h = some (r, h')) :
    h'.rows tensor = List.replicate tensor.size 0 := by
  rw [alignTensor_pad hlt] at halign
  obtain ⟨h₁, _, _, hzeros, _, hinput, _⟩ := padTensor_spec hv hlt halign
  rw [hinput, hzeros rfl]

end Align

def twoRows : Heap ℤ := ⟨fun s => if s = 0 then [1, 2] else [], 1⟩

theorem alignTensor_spec_twoRows :
    (∃ fuel, (alignTensor ⟨0, 0, 2⟩ 5 false fuel twoRows).isSome) ∧
      ∀ fuel r h', alignTensor ⟨0, 0, 2⟩ 5 false fuel twoRows = some (r, h') →
        Kept ⟨0, 0, 2⟩ twoRows 5 r h' ∧ Returns ⟨0, 0, 2⟩ twoRows r h' := by
  have hv : twoRows.Valid ⟨0, 0, 2⟩ := ⟨by decide, by decide⟩
  obtain ⟨hends, hresult⟩ := alignTensor_spec hv (by decide)
  refine ⟨hends, fun fuel r h' halign => ?_⟩
  obtain ⟨_, hkept, hback⟩ := hresult fuel r h' halign
  exact ⟨hkept (Or.inl rfl), hback (Or.inl rfl) (by decide)⟩

/-- Cut to one row, the second row is lost; padded with a row of zeros, both rows are zeroed. -/
theorem not_alignTensor_spec :
    (¬ ∀ fuel r h', alignTensor ⟨0, 0, 2⟩ 1 false fuel twoRows = some (r, h') →
      Returns ⟨0, 0, 2⟩ twoRows r h') ∧
    ¬ ∀ fuel r h', alignTensor ⟨0, 0, 2⟩ 3 true fuel twoRows = some (r, h') →
      Kept ⟨0, 0, 2⟩ twoRows 3 r h' := by
  constructor
  · intro h
    have hback := (h 4 _ _ rfl).rows false 4 _ _ rfl
    revert hback
    decide
  · intro h
    have hinput := (h 4 _ _ rfl).input
    revert hinput
    decide

/-- No rows, of which two should be made. -/
theorem not_alignTensor_isSome :
    ¬∃ fuel, (alignTensor ⟨0, 0, 0⟩ 2 false fuel twoRows).isSome := by
  rw [alignTensor_isSome_iff]
  decide

end Rannc
