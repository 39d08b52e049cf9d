import Rannc.Comm.Redist
import Rannc.Comp.ParamSegments
import Rannc.Lib.Dict
import Rannc.Lib.OptionFold
import Rannc.Torch.Tensor

/-!
# Distributed parameters

Every rank holds one segment of a parameter, padded to the size all segments have, and gathers the
others when it needs the whole. The tables are keyed by the id that the parameter has on the rank.
-/
namespace Rannc

/-- The types that a collective of the wrapper takes. -/
def hasNcclDataType (supports_bfloat16 : Bool) : IRTensorElemType → Bool
  | .HALF | .FLOAT | .DOUBLE | .INT | .LONG => true
  | .BFLOAT16 => supports_bfloat16
  | _ => false

/-- What all ranks of a communicator get from its first one. -/
def bcast (ranks : Finset ℕ) (ids : ℕ → ℤ) : ℤ := ids ((sortRanks ranks).headD 0)

/-- The tables of a rank. Assertions are left out, as in a release build. -/
structure ParamLocator (α : Type) where
  offsets : Dict ℤ (List ℕ)
  src_sizes : Dict ℤ (List ℕ)
  global_id_to_local : Dict ℤ ℤ
  ir_types : Dict ℤ IRType
  segment_sizes : Dict ℤ ℕ
  ranks : Dict ℤ (Finset ℕ)
  my_indices : Dict ℤ ℕ
  param_parts : Dict ℤ (Tensor α)

namespace ParamLocator

variable {α β : Type}

def empty : ParamLocator α :=
  ⟨.empty, .empty, .empty, .empty, .empty, .empty, .empty, .empty⟩

def pushBack (table : Dict ℤ (List β)) (pid : ℤ) (value : β) : Dict ℤ (List β) :=
  table.set pid ((table.get pid).getD [] ++ [value])

def doRegister (my_rank : ℕ) (global_id pid : ℤ) (param : Tensor α) (ranks : Finset ℕ)
    (s : ParamLocator α) : ParamLocator α :=
  let segments := Rannc.doRegister param.numel ranks
  { s with
    offsets := (segments.map Prod.fst).foldl (pushBack · pid) s.offsets
    src_sizes := (segments.map Prod.snd).foldl (pushBack · pid) s.src_sizes
    segment_sizes := s.segment_sizes.set pid (ceilDiv param.numel ranks.card).toNat
    ranks := s.ranks.set pid ranks
    global_id_to_local := s.global_id_to_local.set global_id pid
    ir_types := s.ir_types.set pid param.irType
    my_indices := s.my_indices.set pid (getLocalRank ranks my_rank) }

def remove (pid : ℤ) (s : ParamLocator α) : ParamLocator α :=
  { s with
    global_id_to_local := s.global_id_to_local.erase pid
    ir_types := s.ir_types.erase pid
    segment_sizes := s.segment_sizes.erase pid
    my_indices := s.my_indices.erase pid
    param_parts := s.param_parts.erase pid }

def getSegmentNum (pid : ℤ) (s : ParamLocator α) : Option ℕ := (s.ranks.get pid).map Finset.card

def getSegmentRange (pid : ℤ) (index : ℕ) (s : ParamLocator α) : Option (ℕ × ℕ) := do
  let offset ← (← s.offsets.get pid)[index]?
  let src_size ← (← s.src_sizes.get pid)[index]?
  some (offset, offset + src_size)

/-- The range of the rank itself. -/
def getMySegmentRange (pid : ℤ) (s : ParamLocator α) : Option (ℕ × ℕ) := do
  s.getSegmentRange pid (← s.my_indices.get pid)

def getOwner (pid : ℤ) (index : ℕ) (s : ParamLocator α) : Option ℕ := do
  (sortRanks (← s.ranks.get pid))[index]?

theorem get_foldl_pushBack (values : List β) (table : Dict ℤ (List β)) (pid q : ℤ) :
    (values.foldl (pushBack · pid) table).get q =
      if q = pid ∧ values ≠ [] then some ((table.get pid).getD [] ++ values) else table.get q := by
  induction values generalizing table with
  | nil => simp
  | cons value values ih =>
    rw [List.foldl_cons, ih]
    unfold pushBack
    rw [Dict.get_set, Dict.get_set]
    by_cases hq : q = pid <;> by_cases hvalues : values = [] <;> simp [hq, hvalues]

/-- Nothing was registered by the id. -/
structure Fresh (pid : ℤ) (s : ParamLocator α) : Prop where
  offsets : s.offsets.get pid = none
  src_sizes : s.src_sizes.get pid = none

section Register

variable (my_rank : ℕ) (global_id pid : ℤ) (param : Tensor α) {ranks : Finset ℕ}
  (s : ParamLocator α)

theorem offsets_doRegister (hranks : ranks.Nonempty) (q : ℤ) :
    (s.doRegister my_rank global_id pid param ranks).offsets.get q =
      if q = pid then some ((s.offsets.get pid).getD [] ++
        (Rannc.doRegister param.numel ranks).map Prod.fst) else s.offsets.get q := by
  have hne : (Rannc.doRegister param.numel ranks).map Prod.fst ≠ [] := by
    apply List.ne_nil_of_length_pos
    simpa using hranks
  simp [doRegister, get_foldl_pushBack, hne]

theorem src_sizes_doRegister (hranks : ranks.Nonempty) (q : ℤ) :
    (s.doRegister my_rank global_id pid param ranks).src_sizes.get q =
      if q = pid then some ((s.src_sizes.get pid).getD [] ++
        (Rannc.doRegister param.numel ranks).map Prod.snd) else s.src_sizes.get q := by
  have hne : (Rannc.doRegister param.numel ranks).map Prod.snd ≠ [] := by
    apply List.ne_nil_of_length_pos
    simpa using hranks
  simp [doRegister, get_foldl_pushBack, hne]

variable {s}

theorem Fresh.getSegmentRange_doRegister (h : s.Fresh pid) (hranks : ranks.Nonempty) (index : ℕ) :
    (s.doRegister my_rank global_id pid param ranks).getSegmentRange pid index =
      (Rannc.doRegister param.numel ranks)[index]?.map fun e => (e.1, e.1 + e.2) := by
  unfold getSegmentRange
  rw [offsets_doRegister _ _ _ _ _ hranks, src_sizes_doRegister _ _ _ _ _ hranks, if_pos rfl,
    if_pos rfl, h.offsets, h.src_sizes]
  cases hsegment : (Rannc.doRegister param.numel ranks)[index]? <;> simp [hsegment]

end Register

/-- The segments of a parameter among its ranks, as a rank has them in its tables. -/
structure Segmented (my_rank : ℕ) (pid : ℤ) (numel : ℕ) (ranks : Finset ℕ)
    (s : ParamLocator α) : Prop where
  num : s.getSegmentNum pid = some ranks.card
  total : ∀ index, (s.getSegmentRange pid index).isSome ↔ index < ranks.card
  size : ∃ segment_size, s.segment_sizes.get pid = some segment_size ∧
    ∀ index range, s.getSegmentRange pid index = some range →
      range.1 ≤ range.2 ∧ range.2 ≤ numel ∧ range.2 - range.1 ≤ segment_size
  ordered : ∀ i j a b, i < j → s.getSegmentRange pid i = some a →
    s.getSegmentRange pid j = some b → a.2 ≤ b.1
  covered : ∀ x < numel, ∃! index, ∃ range, s.getSegmentRange pid index = some range ∧
    range.1 ≤ x ∧ x < range.2
  mine : s.getMySegmentRange pid = s.getSegmentRange pid (getLocalRank ranks my_rank)

/-- Segments that make up the parameter are segments as they should be. -/
theorem Segmented.of_cuts {my_rank : ℕ} {pid : ℤ} {numel segment_size : ℕ} {ranks : Finset ℕ}
    {s : ParamLocator α} {segments : List (ℕ × ℕ)} (hcuts : Cuts 0 segments numel)
    (hlength : segments.length = ranks.card) (hsize : ∀ e ∈ segments, e.2 ≤ segment_size)
    (hrange : ∀ index,
      s.getSegmentRange pid index = segments[index]?.map fun e => (e.1, e.1 + e.2))
    (hsegment_size : s.segment_sizes.get pid = some segment_size)
    (hranks : s.ranks.get pid = some ranks)
    (hindex : s.my_indices.get pid = some (getLocalRank ranks my_rank)) :
    s.Segmented my_rank pid numel ranks := by
  have hsome {index : ℕ} {range : ℕ × ℕ} (h : s.getSegmentRange pid index = some range) :
      ∃ e, segments[index]? = some e ∧ range = (e.1, e.1 + e.2) := by
    rw [hrange] at h
    obtain ⟨e, he, heq⟩ := Option.map_eq_some_iff.mp h
    exact ⟨e, he, heq.symm⟩
  have hordered {i j : ℕ} {a b : ℕ × ℕ} (hij : i < j) (ha : s.getSegmentRange pid i = some a)
      (hb : s.getSegmentRange pid j = some b) : a.2 ≤ b.1 := by
    obtain ⟨e, he, rfl⟩ := hsome ha
    obtain ⟨f, hf, rfl⟩ := hsome hb
    obtain ⟨hi, rfl⟩ := List.getElem?_eq_some_iff.mp he
    obtain ⟨hj, rfl⟩ := List.getElem?_eq_some_iff.mp hf
    exact List.pairwise_iff_getElem.mp hcuts.pairwise i j hi hj hij
  constructor
  case num => simp [getSegmentNum, hranks]
  case total =>
    intro index
    simp [hrange, hlength]
  case size =>
    refine ⟨segment_size, hsegment_size, fun index range h => ?_⟩
    obtain ⟨e, he, rfl⟩ := hsome h
    have hmem := List.mem_of_getElem? he
    have hle := hcuts.range_le e hmem
    have he_size := hsize e hmem
    dsimp only
    omega
  case ordered => exact fun i j a b hij ha hb => hordered hij ha hb
  case covered =>
    intro x hx
    obtain ⟨e, hmem, hlow, hhigh⟩ := hcuts.exists_range (Nat.zero_le x) hx
    obtain ⟨index, hindex⟩ := List.mem_iff_getElem?.mp hmem
    have hself : s.getSegmentRange pid index = some (e.1, e.1 + e.2) := by simp [hrange, hindex]
    refine ⟨index, ⟨(e.1, e.1 + e.2), hself, hlow, hhigh⟩, ?_⟩
    rintro other ⟨range, hother, hlow', hhigh'⟩
    -- two different segments do not overlap
    rcases lt_trichotomy other index with hlt | heq | hgt
    · have hle := hordered hlt hother hself
      dsimp only at hle
      omega
    · exact heq
    · have hle := hordered hgt hself hother
      dsimp only at hle
      omega
  case mine => simp [getMySegmentRange, hindex]

/-- What `copy_` writes to a buffer. A single element is broadcast. -/
def copied (size : ℕ) (src_buf : List α) : Option (List α) :=
  if src_buf.length = size then some src_buf
  else
    match src_buf with
    | [a] => some (List.replicate size a)
    | _ => none

variable [Zero α]

def partTensor (param : Tensor α) (offset src_size segment_size : ℕ) : Option (Tensor α) := do
  let dst_buf ←
    if 0 < src_size then
      copied (min src_size segment_size) (slice param.data (offset, src_size))
    else some []
  some (Tensor.ofList param.elem_type param.requires_grad
    (dst_buf ++ List.replicate (segment_size - dst_buf.length) 0))

def getPart (my_rank : ℕ) (pid : ℤ) (param : Tensor α) (ranks : Finset ℕ) (s : ParamLocator α) :
    Option (Tensor α) := do
  let local_rank := getLocalRank ranks my_rank
  let offset ← (← s.offsets.get pid)[local_rank]?
  let src_size ← (← s.src_sizes.get pid)[local_rank]?
  partTensor param offset src_size (← s.segment_sizes.get pid)

/-- A call that throws leaves what it has registered. -/
def store (my_rank : ℕ) (global_id pid : ℤ) (param : Tensor α) (all_ranks : Finset ℕ)
    (s : ParamLocator α) : ParamLocator α :=
  let s := s.doRegister my_rank global_id pid param all_ranks
  match s.getPart my_rank pid param all_ranks with
  | some part_tensor => { s with param_parts := s.param_parts.set pid part_tensor }
  | none => s

/-- All ranks send as many elements, which lie in the buffer in the order of the ranks. -/
def allgather (supports_bfloat16 : Bool) (sendbufs : List (Tensor α)) (sendbuf : Tensor α)
    (size : ℕ) : Option (List α) :=
  if hasNcclDataType supports_bfloat16 sendbuf.elem_type ∧
      (∀ part ∈ sendbufs, part.numel = sendbuf.numel) ∧ sendbufs.length * sendbuf.numel = size then
    some (sendbufs.flatMap Tensor.data)
  else none

def view (elem_type : IRTensorElemType) (dim : List ℕ) (data : List α) : Option (Tensor α) :=
  if h : data.length = productDim dim then some ⟨elem_type, dim, false, data, h⟩ else none

/-- Gradients are required of a part again after it was sent, which throws for the other types. -/
def load (supports_bfloat16 : Bool) (sendbufs : List (Tensor α)) (pid : ℤ) (s : ParamLocator α) :
    Option (Tensor α × ParamLocator α) := do
  let param_part ← s.param_parts.get pid
  let ir_type ← s.ir_types.get pid
  let size := (← s.segment_sizes.get pid) * (← s.ranks.get pid).card
  let buf ← allgather supports_bfloat16 sendbufs param_part size
  guard (isFloating param_part.elem_type)
  let s := { s with param_parts := s.param_parts.set pid (param_part.setRequiresGrad true) }
  let loaded ←
    view ir_type.getTensorElemType ir_type.getTensorDim (buf.take (productDim ir_type.getTensorDim))
  some (loaded, s)

/-- What the rank that has a segment holds of the parameter. -/
def paddedPart (param : Tensor α) (segment_size : ℕ) (segment : ℕ × ℕ) : Tensor α :=
  Tensor.ofList param.elem_type param.requires_grad
    (slice param.data segment ++ List.replicate (segment_size - segment.2) 0)

theorem partTensor_eq {param : Tensor α} {segment_size : ℕ} {segment : ℕ × ℕ}
    (hle : segment.1 + segment.2 ≤ param.data.length) (hsize : segment.2 ≤ segment_size) :
    partTensor param segment.1 segment.2 segment_size =
      some (paddedPart param segment_size segment) := by
  have hlength : (slice param.data segment).length = segment.2 := length_slice hle
  unfold partTensor paddedPart
  by_cases hpos : 0 < segment.2
  · simp [hpos, copied, hlength, min_eq_left hsize]
  · have hzero : segment.2 = 0 := by omega
    have hnil : slice param.data segment = [] := by
      apply List.eq_nil_of_length_eq_zero
      omega
    simp [hzero, hnil]

theorem numel_paddedPart (param : Tensor α) {segment_size : ℕ} {segment : ℕ × ℕ}
    (hle : segment.1 + segment.2 ≤ param.data.length) (hsize : segment.2 ≤ segment_size) :
    (paddedPart param segment_size segment).numel = segment_size := by
  simp [paddedPart, Tensor.numel, Tensor.ofList, productDim, length_slice hle, hsize]

/-- All ranks store a parameter, each by its own id. -/
def storeAll (pids : ℕ → ℤ) (param : Tensor α) (all_ranks : Finset ℕ) (s : ℕ → ParamLocator α) :
    ℕ → ParamLocator α :=
  fun rank => (s rank).store rank (bcast all_ranks pids) (pids rank) param all_ranks

def getSendbufs (pids : ℕ → ℤ) (all_ranks : Finset ℕ) (s : ℕ → ParamLocator α) :
    Option (List (Tensor α)) :=
  (sortRanks all_ranks).mapM fun rank => (s rank).param_parts.get (pids rank)

/-- What a rank gets when all ranks load a parameter. -/
def loadAll (supports_bfloat16 : Bool) (pids : ℕ → ℤ) (all_ranks : Finset ℕ)
    (s : ℕ → ParamLocator α) (rank : ℕ) : Option (Tensor α × ParamLocator α) := do
  (s rank).load supports_bfloat16 (← getSendbufs pids all_ranks s) (pids rank)

section Store

variable {all_ranks : Finset ℕ} {param : Tensor α} {s : ParamLocator α} {rank : ℕ}
  {global_id pid : ℤ}

/-- The segment of a rank. -/
def segmentOf (param : Tensor α) (all_ranks : Finset ℕ) (rank : ℕ) : ℕ × ℕ :=
  (Rannc.doRegister param.numel all_ranks).getD (getLocalRank all_ranks rank) (0, 0)

omit [Zero α] in
theorem getElem?_getLocalRank (param : Tensor α) (hrank : rank ∈ all_ranks) :
    (Rannc.doRegister param.numel all_ranks)[getLocalRank all_ranks rank]? =
      some (segmentOf param all_ranks rank) := by
  have hlt : getLocalRank all_ranks rank < (Rannc.doRegister param.numel all_ranks).length := by
    rw [length_doRegister, ← length_sortRanks]
    exact List.idxOf_lt_length_of_mem (by simpa using hrank)
  simp [segmentOf, List.getD_eq_getElem?_getD, List.getElem?_eq_getElem hlt]

omit [Zero α] in
theorem segmentOf_spec (param : Tensor α) (hrank : rank ∈ all_ranks) :
    (segmentOf param all_ranks rank).1 + (segmentOf param all_ranks rank).2 ≤ param.data.length ∧
      (segmentOf param all_ranks rank).2 ≤ (ceilDiv param.numel all_ranks.card).toNat := by
  have hmem := List.mem_of_getElem? (getElem?_getLocalRank param hrank)
  have hcuts := doRegister_cuts ⟨rank, hrank⟩ param.numel
  constructor
  · rw [param.length_data]
    exact hcuts.range_le _ hmem
  · exact size_le_of_mem_segmentsFrom _ hmem

omit [Zero α] in
theorem map_segmentOf :
    (sortRanks all_ranks).map (segmentOf param all_ranks) =
      Rannc.doRegister param.numel all_ranks := by
  apply List.ext_getElem
  · simp
  · intro i hi hi'
    have hi_ranks : i < (sortRanks all_ranks).length := by simpa using hi
    have hlocal : getLocalRank all_ranks (sortRanks all_ranks)[i] = i :=
      (nodup_sortRanks all_ranks).idxOf_getElem i hi_ranks
    simp [segmentOf, hlocal, List.getElem?_eq_getElem hi']

theorem Fresh.getPart (h : s.Fresh pid) (hrank : rank ∈ all_ranks) :
    (s.doRegister rank global_id pid param all_ranks).getPart rank pid param all_ranks =
      some (paddedPart param (ceilDiv param.numel all_ranks.card).toNat
        (segmentOf param all_ranks rank)) := by
  have hsegment := getElem?_getLocalRank param hrank
  have hsize : (s.doRegister rank global_id pid param all_ranks).segment_sizes.get pid =
      some (ceilDiv param.numel all_ranks.card).toNat := by simp [doRegister, Dict.get_set]
  have hspec := segmentOf_spec param hrank
  rw [← partTensor_eq hspec.1 hspec.2]
  unfold ParamLocator.getPart
  rw [offsets_doRegister _ _ _ _ _ ⟨rank, hrank⟩, src_sizes_doRegister _ _ _ _ _ ⟨rank, hrank⟩,
    hsize]
  simp [h.offsets, h.src_sizes, hsegment]

theorem Fresh.store_eq (h : s.Fresh pid) (hrank : rank ∈ all_ranks) :
    s.store rank global_id pid param all_ranks =
      { s.doRegister rank global_id pid param all_ranks with
        param_parts := s.param_parts.set pid
          (paddedPart param (ceilDiv param.numel all_ranks.card).toNat
            (segmentOf param all_ranks rank)) } := by
  unfold store
  simp only [h.getPart hrank]
  rfl

theorem Fresh.segmented_store (h : s.Fresh pid) (hrank : rank ∈ all_ranks) :
    (s.store rank global_id pid param all_ranks).Segmented rank pid param.numel all_ranks := by
  rw [h.store_eq hrank]
  apply Segmented.of_cuts (doRegister_cuts ⟨rank, hrank⟩ param.numel) (by simp)
    size_le_of_mem_segmentsFrom
  case hrange => exact h.getSegmentRange_doRegister rank global_id pid param ⟨rank, hrank⟩
  case hsegment_size => simp [doRegister, Dict.get_set]
  case hranks => simp [doRegister, Dict.get_set]
  case hindex => simp [doRegister, Dict.get_set]

end Store

section Load

variable {all_ranks : Finset ℕ} {pids : ℕ → ℤ} {param : Tensor α} {s : ℕ → ParamLocator α}
  {supports_bfloat16 : Bool}

theorem getSendbufs_storeAll (h : ∀ rank ∈ all_ranks, (s rank).Fresh (pids rank)) :
    getSendbufs pids all_ranks (storeAll pids param all_ranks s) =
      some ((Rannc.doRegister param.numel all_ranks).map
        (paddedPart param (ceilDiv param.numel all_ranks.card).toNat)) := by
  unfold getSendbufs
  rw [mapM_eq_some_iff, ← map_segmentOf, List.map_map, List.map_map]
  apply List.map_congr_left
  intro rank hmem
  have hrank : rank ∈ all_ranks := by simpa using hmem
  simp [storeAll, (h rank hrank).store_eq hrank, Dict.get_set]

theorem take_gathered (param : Tensor α) (hranks : all_ranks.Nonempty) :
    (((Rannc.doRegister param.numel all_ranks).map
      (paddedPart param (ceilDiv param.numel all_ranks.card).toNat)).flatMap Tensor.data).take
        param.numel = param.data := by
  have hlength : param.numel = param.data.length := param.length_data.symm
  have htake := take_flatMap_padded (l := param.data) (0 : α)
    (ceilDiv param.numel all_ranks.card).toNat all_ranks.card (Nat.zero_le _) (by
      rw [Nat.zero_add, ← hlength]
      exact le_mul_ceilDiv hranks.card_pos)
  rw [List.flatMap_map]
  unfold Rannc.doRegister
  rw [hlength] at htake ⊢
  exact htake

omit [Zero α] in
theorem view_data : view param.elem_type param.dim param.data = some param.detach :=
  dif_pos param.length_data

theorem allgather_parts {all_ranks : Finset ℕ} (param : Tensor α)
    (htype : hasNcclDataType supports_bfloat16 param.elem_type) {rank : ℕ}
    (hrank : rank ∈ all_ranks) :
    allgather supports_bfloat16
      ((Rannc.doRegister param.numel all_ranks).map
        (paddedPart param (ceilDiv param.numel all_ranks.card).toNat))
      (paddedPart param (ceilDiv param.numel all_ranks.card).toNat
        (segmentOf param all_ranks rank))
      ((ceilDiv param.numel all_ranks.card).toNat * all_ranks.card) =
    some (((Rannc.doRegister param.numel all_ranks).map
      (paddedPart param (ceilDiv param.numel all_ranks.card).toNat)).flatMap Tensor.data) := by
  have hnumel (r : ℕ) (hr : r ∈ all_ranks) := numel_paddedPart param
    (segmentOf_spec param hr).1 (segmentOf_spec param hr).2
  unfold allgather
  rw [if_pos]
  refine ⟨htype, ?_, ?_⟩
  · rw [hnumel rank hrank, ← map_segmentOf, List.map_map]
    intro part hpart
    obtain ⟨r, hr, rfl⟩ := List.mem_map.mp hpart
    exact hnumel r (by simpa using hr)
  · rw [hnumel rank hrank, List.length_map, length_doRegister, mul_comm]

theorem loadAll_storeAll (h : ∀ rank ∈ all_ranks, (s rank).Fresh (pids rank))
    (htype : hasNcclDataType supports_bfloat16 param.elem_type)
    (hfloating : isFloating param.elem_type) {rank : ℕ} (hrank : rank ∈ all_ranks) :
    ∃ s', loadAll supports_bfloat16 pids all_ranks (storeAll pids param all_ranks s) rank =
      some (param.detach, s') := by
  have hgather := allgather_parts param htype hrank
  have htake := take_gathered param ⟨rank, hrank⟩
  have hview : view param.irType.getTensorElemType param.irType.getTensorDim param.data =
      some param.detach := view_data
  have hfloating' : isFloating (paddedPart param (ceilDiv param.numel all_ranks.card).toNat
      (segmentOf param all_ranks rank)).elem_type := hfloating
  have hdim : productDim param.irType.getTensorDim = param.numel := rfl
  unfold loadAll load
  rw [getSendbufs_storeAll h]
  simp [storeAll, (h rank hrank).store_eq hrank, doRegister, Dict.get_set, hgather, hdim, htake,
    hview, hfloating', guard]

end Load

/-- All ranks have their segments of a parameter, and all get it back. -/
structure Reassembled (supports_bfloat16 : Bool) (pids : ℕ → ℤ) (param : Tensor α)
    (all_ranks : Finset ℕ) (s : ℕ → ParamLocator α) : Prop where
  segmented : ∀ rank ∈ all_ranks,
    (storeAll pids param all_ranks s rank).Segmented rank (pids rank) param.numel all_ranks
  loaded : ∀ rank ∈ all_ranks, ∃ s',
    loadAll supports_bfloat16 pids all_ranks (storeAll pids param all_ranks s) rank =
      some (param.detach, s')

theorem storeAll_reassembled (supports_bfloat16 : Bool) (pids : ℕ → ℤ) (param : Tensor α)
    (all_ranks : Finset ℕ) (s : ℕ → ParamLocator α)
    (hfresh : ∀ rank ∈ all_ranks, (s rank).Fresh (pids rank)) :
    (∀ rank ∈ all_ranks,
      (storeAll pids param all_ranks s rank).Segmented rank (pids rank) param.numel all_ranks) ∧
    (hasNcclDataType supports_bfloat16 param.elem_type → isFloating param.elem_type →
      Reassembled supports_bfloat16 pids param all_ranks s) := by
  have hsegmented : ∀ rank ∈ all_ranks,
      (storeAll pids param all_ranks s rank).Segmented rank (pids rank) param.numel all_ranks :=
    fun rank hrank => (hfresh rank hrank).segmented_store hrank
  constructor
  · exact hsegmented
  · intro htype hfloating
    constructor
    · exact hsegmented
    · exact fun rank hrank => loadAll_storeAll hfresh htype hfloating hrank

end ParamLocator

def fourElements : Tensor ℕ := Tensor.ofList .FLOAT true [7, 8, 9, 10]

def oneFlag : Tensor ℕ := Tensor.ofList .BOOL false [1]

/-- The ids of a parameter on the ranks. -/
def pidsFrom (first : ℤ) (rank : ℕ) : ℤ := first + rank

theorem storeAll_reassembled_four :
    ParamLocator.Reassembled true (pidsFrom 100) fourElements {0, 1, 2} fun _ => .empty :=
  (ParamLocator.storeAll_reassembled true (pidsFrom 100) fourElements {0, 1, 2} _
    fun _ _ => ⟨rfl, rfl⟩).2 rfl rfl

/-- Flags cannot be gathered. -/
theorem not_reassembled :
    ¬ ParamLocator.Reassembled true (pidsFrom 100) oneFlag {0, 1, 2} fun _ => .empty := by
  intro h
  obtain ⟨s', hs'⟩ := h.loaded 0 (by decide)
  have hnone : ParamLocator.loadAll true (pidsFrom 100) {0, 1, 2}
      (ParamLocator.storeAll (pidsFrom 100) oneFlag {0, 1, 2} fun _ => .empty) 0 = none := by
    rfl
  rw [hnone] at hs'
  exact absurd hs' (by simp)

end Rannc
