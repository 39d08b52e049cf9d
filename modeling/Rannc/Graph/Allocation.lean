import Rannc.Common.BatchDims
import Rannc.Graph.CreateDeployment
import Rannc.Lib.Deal
import Rannc.Lib.OptionFold

/-!
# Replicas of subgraphs and their devices

A subgraph is scaled to the share of the batch that one of its replicas gets, and its replicas are
given devices: subgraph by subgraph, or in rounds in which every subgraph gets its share.
-/
namespace Rannc

structure PartitionDP where
  id : String
  graph : IRGraph
  subgraphs : Dict String IRGraph
  replica_nums : Dict String ℤ
  connections : List GraphConnection

/-- The types of the parts of a tensor. A scalar cannot be cut. -/
def getDistTensorType (type : IRType) (ranks : Finset ℕ) (batch_size : ℕ) :
    Option (RankMap IRType) := do
  guard (type.getTensorDim ≠ [] ∧ 0 < batch_size)
  return (calcDistBatchDims batch_size type.getTensorDim ranks 0).map fun it =>
    (it.1, .tensor type.getTensorElemType it.2 type.requiresGrad)

section DistType

variable (ranks : Finset ℕ) (batch_size rank : ℕ)

mutual

/-- The type of a rank's part. There is no case for functions. -/
def getDistType : IRType → Option IRType
  | .scalar scalar_type => some (.scalar scalar_type)
  | .tensor elem_type dim requires_grad =>
    if dim = [] then some (.tensor elem_type dim requires_grad)
    else do
      (← getDistTensorType (.tensor elem_type dim requires_grad) ranks batch_size).lookup rank
  | .list .TENSOR compound_types => do
    return .list .TENSOR (← compound_types.mapM fun type => do
      (← getDistTensorType type ranks batch_size).lookup rank)
  | .list .GENERIC compound_types => do return .list .GENERIC (← getDistTypes compound_types)
  | .list list_type compound_types => some (.list list_type compound_types)
  | .tuple compound_types => do return .tuple (← getDistTypes compound_types)
  | .string => some .string
  | .none => some .none
  | .optional elem_type => some (.optional elem_type)
  | .function _ => Option.none

def getDistTypes : List IRType → Option (List IRType)
  | [] => some []
  | type :: types => do return (← getDistType type) :: (← getDistTypes types)

end

end DistType

/-- A graph for one of several replicas: the values of the batch get the types of its part. -/
def scaleGraph (graph : IRGraph) (name : String) (num : ℤ) (index batch_size : ℕ) :
    Option IRGraph := do
  let dummy_ranks := Finset.range num.toNat
  let values ← graph.values.mapM fun v =>
    if v.2.is_batch then do
      let dp_type ← getDistType dummy_ranks batch_size index v.2.type
      return (v.1, { name := v.2.name, type := dp_type, is_batch := true })
    else some v
  IRGraph.create name graph.nodes values graph.input_names graph.output_names

/-- The number of replicas that a graph is scaled for. -/
def replicaNum (g : IRGraph) (num : ℤ) : ℤ := if 1 < num ∧ !g.is_replicable then 1 else num

def replicateSubgraph (batch_size : ℕ) (subgraphs : Dict String IRGraph) (it : String × ℤ) :
    Option (Dict String IRGraph) := do
  let g ← subgraphs.get it.1
  let replica ← scaleGraph g g.name (replicaNum g it.2) 0 batch_size
  return subgraphs.set it.1 { replica with is_replicable := g.is_replicable }

def replicate (partition : PartitionDP) (repl_nums : Dict String ℤ) (batch_size : ℕ) :
    Option PartitionDP := do
  let subgraphs ← repl_nums.entries.foldlM (replicateSubgraph batch_size) partition.subgraphs
  return { partition with subgraphs := subgraphs, replica_nums := repl_nums }

/-- The loop of `gcd`, which ends at a remainder of zero. -/
def gcdLoop (a b : ℕ) : ℕ :=
  if b = 0 then a else if a % b = 0 then b else gcdLoop (a % b) (b % (a % b))
termination_by b
decreasing_by
  rename_i hb ha
  exact (Nat.mod_lt b (Nat.pos_of_ne_zero ha)).trans (Nat.mod_lt a (Nat.pos_of_ne_zero hb))

def gcd (a b : ℤ) : ℤ := gcdLoop a.natAbs b.natAbs

/-- The overload for a vector, which has to have a front. -/
def gcdAll : List ℤ → Option ℤ
  | [] => none
  | a :: v => some (v.foldl gcd a)

/-- Devices are dealt in turn, modulo the number of devices. The last number of replicas is taken
for all. A negative one is huge as an unsigned number, and the count of the turns overflows. -/
def searchAllocation (partition : PartitionDP) (dev_count : ℕ) :
    Option (Dict String (Finset ℕ)) := do
  let repl_num := (partition.replica_nums.entries.getLast?.map Prod.snd).getD (-1)
  guard (0 ≤ repl_num ∨ partition.subgraphs.keys = [])
  let ret ← (List.range repl_num.toNat).foldlM (fun ret _ =>
    partition.subgraphs.keys.foldlM (fun ret id => do
      guard (dev_count ≠ 0)
      return ret.give (· % dev_count) id) ret) Deal.start
  return ret.sets

/-- Devices are dealt in rounds, as many as the greatest common divisor. -/
def searchAllocationFlat (partition : PartitionDP) : Option (Dict String (Finset ℕ)) := do
  let common_repl_num ← gcdAll (partition.replica_nums.entries.map Prod.snd)
  let ret := (List.range common_repl_num.toNat).foldl (fun ret _ =>
    partition.replica_nums.entries.foldl (fun ret it =>
      ret.giveTimes id (it.2.tdiv common_repl_num).toNat it.1) ret) Deal.start
  return ret.sets

/-- Devices are dealt to one subgraph after the other, the most replicated first. -/
def searchAllocationSimple (partition : PartitionDP) : Option (Dict String (Finset ℕ)) := do
  let gids ← partition.subgraphs.keys.mapM fun gid => do
    return (gid, ← partition.replica_nums.get gid)
  let sorted_gid := gids.insertionSort fun g1 g2 => g2.2 ≤ g1.2
  let ret := sorted_gid.foldl (fun ret it => ret.giveTimes id it.2.toNat it.1) Deal.start
  return ret.sets

/-- The devices of a subgraph. -/
def allocated (alloc : Dict String (Finset ℕ)) (id : String) : Finset ℕ := (alloc.get id).getD ∅

/-- Every subgraph has its number of devices, no device has two subgraphs, and the devices are the
first ones. -/
structure ExactPacking (repl_nums : Dict String ℤ) (alloc : Dict String (Finset ℕ)) : Prop where
  card : ∀ id num, repl_nums.get id = some num → ((allocated alloc id).card : ℤ) = num
  disjoint : ∀ id id', id ≠ id' → Disjoint (allocated alloc id) (allocated alloc id')
  union : ∀ dev : ℕ, (∃ id, dev ∈ allocated alloc id) ↔
    (dev : ℤ) < (repl_nums.entries.map Prod.snd).sum
  keys : ∀ id, (alloc.get id).isSome ↔ id ∈ repl_nums.keys

/-- Every name as often as it has replicas. -/
def replicaNames (repl_nums : Dict String ℤ) : List String :=
  repl_nums.entries.flatMap fun it => List.replicate it.2.toNat it.1

section Packing

variable {repl_nums : Dict String ℤ}

theorem count_replicaNames (id : String) :
    (replicaNames repl_nums).count id = ((repl_nums.get id).map Int.toNat).getD 0 :=
  Deal.count_flatMap_replicate Int.toNat repl_nums.nodup id

theorem length_replicaNames (hpos : ∀ it ∈ repl_nums.entries, 0 < it.2) :
    ((replicaNames repl_nums).length : ℤ) = (repl_nums.entries.map Prod.snd).sum := by
  unfold replicaNames
  revert hpos
  induction repl_nums.entries with
  | nil => exact fun _ => rfl
  | cons it entries ih =>
    intro hpos
    have hit := hpos it List.mem_cons_self
    have hrest := ih fun e he => hpos e (List.mem_cons_of_mem _ he)
    simp only [List.flatMap_cons, List.length_append, List.length_replicate, List.map_cons,
      List.sum_cons, Nat.cast_add, hrest]
    omega

theorem ExactPacking.of_exact (hpos : ∀ it ∈ repl_nums.entries, 0 < it.2) {names : List String}
    (hnames : names.Perm (replicaNames repl_nums)) {deal : Deal String}
    (h : deal.Exact names) : ExactPacking repl_nums deal.sets where
  card id num hnum := by
    have hcard := h.card id
    rw [hnames.count_eq, count_replicaNames, hnum] at hcard
    have hpos' := hpos (id, num) (Dict.mem_entries_iff.mpr hnum)
    have hcard' : (allocated deal.sets id).card = num.toNat := hcard
    dsimp only at hpos'
    omega
  disjoint := h.disjoint
  union dev := by
    have hcovers := h.covers dev
    rw [hnames.length_eq] at hcovers
    rw [← length_replicaNames hpos, Nat.cast_lt]
    exact hcovers
  keys id := by
    rw [h.keys, ← List.count_pos_iff, hnames.count_eq, count_replicaNames, Dict.mem_keys_iff]
    cases hnum : repl_nums.get id with
    | none => simp
    | some num =>
      have hpos' := hpos (id, num) (Dict.mem_entries_iff.mpr hnum)
      simpa using hpos'

end Packing

theorem gcdLoop_eq (a b : ℕ) : gcdLoop a b = a.gcd b := by
  induction a, b using gcdLoop.induct with
  | case1 a => simp [gcdLoop]
  | case2 a b hb ha =>
    rw [gcdLoop, if_neg hb, if_pos ha, Nat.gcd_comm, Nat.gcd_eq_left (Nat.dvd_of_mod_eq_zero ha)]
  | case3 a b hb ha ih =>
    rw [gcdLoop, if_neg hb, if_neg ha, ih, Nat.gcd_comm, ← Nat.gcd_rec, Nat.gcd_comm a b,
      Nat.gcd_rec b a]

theorem gcd_eq (a b : ℤ) : gcd a b = Int.gcd a b := by
  unfold gcd
  rw [gcdLoop_eq]
  rfl

/-- The number of rounds divides all numbers of replicas. -/
theorem gcdAll_dvd {v : List ℤ} {c : ℤ} (h : gcdAll v = some c) : ∀ a ∈ v, c ∣ a := by
  cases v with
  | nil => exact absurd h (by simp [gcdAll])
  | cons a v =>
    obtain rfl := Option.some.inj h
    have hfold (l : List ℤ) (b : ℤ) : l.foldl gcd b ∣ b ∧ ∀ a ∈ l, l.foldl gcd b ∣ a := by
      induction l generalizing b with
      | nil => simp
      | cons a l ih =>
        have hrest := ih (gcd b a)
        have hgcd := hrest.1
        rw [gcd_eq] at hgcd
        rw [List.foldl_cons]
        constructor
        · rw [gcd_eq]
          exact hgcd.trans (Int.gcd_dvd_left ..)
        · intro x hx
          cases List.mem_cons.mp hx with
          | inl heq =>
            rw [heq, gcd_eq]
            exact hgcd.trans (Int.gcd_dvd_right ..)
          | inr hmem => exact hrest.2 x hmem
    intro x hx
    cases List.mem_cons.mp hx with
    | inl heq => exact heq ▸ (hfold v a).1
    | inr hmem => exact (hfold v a).2 x hmem

theorem gcdAll_of_neg {v : List ℤ} {c : ℤ} (h : gcdAll v = some c) (hneg : c < 0) :
    ∀ a ∈ v, a = c := by
  cases v with
  | nil => exact absurd h (by simp [gcdAll])
  | cons a v =>
    obtain rfl := Option.some.inj h
    cases v using List.reverseRecOn with
    | nil => simp
    | append_singleton v b =>
      rw [List.foldl_concat, gcd_eq] at hneg
      omega

theorem rounds_mul {c num : ℤ} (hdvd : c ∣ num) (hneg : c < 0 → num = c) :
    c.toNat * (num.tdiv c).toNat = num.toNat := by
  obtain ⟨k, rfl⟩ := hdvd
  rcases lt_trichotomy c 0 with hc | rfl | hc
  · have hnum := hneg hc
    rw [hnum]
    simp [Int.toNat_of_nonpos hc.le]
  · simp
  · rw [Int.mul_tdiv_cancel_left k hc.ne']
    rcases le_total 0 k with hk | hk
    · rw [Int.toNat_mul hc.le hk]
    · rw [Int.toNat_of_nonpos hk, Int.toNat_of_nonpos (mul_nonpos_of_nonneg_of_nonpos hc.le hk),
        Nat.mul_zero]

section Search

variable {partition : PartitionDP} {alloc : Dict String (Finset ℕ)}

/-- The names in the order in which the rounds deal to them. -/
def flatNames (repl_nums : Dict String ℤ) (common_repl_num : ℤ) : List String :=
  (List.range common_repl_num.toNat).flatMap fun _ => repl_nums.entries.flatMap fun it =>
    List.replicate (it.2.tdiv common_repl_num).toNat it.1

theorem flatNames_perm {repl_nums : Dict String ℤ} {c : ℤ}
    (hc : gcdAll (repl_nums.entries.map Prod.snd) = some c) :
    (flatNames repl_nums c).Perm (replicaNames repl_nums) := by
  rw [List.perm_iff_count]
  intro id
  have hround := Deal.count_flatMap_replicate (fun num : ℤ => (num.tdiv c).toNat) repl_nums.nodup id
  have hcount : (flatNames repl_nums c).count id =
      c.toNat * ((repl_nums.get id).map fun num => (num.tdiv c).toNat).getD 0 := by
    unfold flatNames Dict.get
    rw [← hround]
    simp [List.count_flatMap, Function.comp_def]
  rw [hcount, count_replicaNames]
  cases hnum : repl_nums.get id with
  | none => rfl
  | some num =>
    have hmem := List.mem_map_of_mem (f := Prod.snd) (Dict.mem_entries_iff.mpr hnum)
    exact rounds_mul (gcdAll_dvd hc num hmem) fun hneg => gcdAll_of_neg hc hneg num hmem

theorem searchAllocationFlat_exact (h : searchAllocationFlat partition = some alloc) :
    ∃ names, names.Perm (replicaNames partition.replica_nums) ∧
      ∃ deal : Deal String, deal.Exact names ∧ deal.sets = alloc := by
  obtain ⟨c, hc, hret⟩ := Option.bind_eq_some_iff.mp h
  refine ⟨flatNames partition.replica_nums c, flatNames_perm hc, _,
    Deal.exact_foldl fun i _ => id_eq i, ?_⟩
  rw [← Option.some.inj hret, flatNames, List.foldl_flatMap]
  simp only [Deal.foldl_giveTimes]

theorem gids_perm (hkeys : ∀ id, id ∈ partition.replica_nums.keys ↔ id ∈ partition.subgraphs.keys)
    {gids : List (String × ℤ)} (h : (partition.subgraphs.keys.mapM fun gid => do
      return (gid, ← partition.replica_nums.get gid)) = some gids) :
    gids.Perm partition.replica_nums.entries := by
  have hmem (it : String × ℤ) : it ∈ gids ↔ it ∈ partition.replica_nums.entries := by
    obtain ⟨id, num⟩ := it
    rw [Dict.mem_entries_iff]
    constructor
    · intro hit
      obtain ⟨gid, -, hgid⟩ := exists_of_mem_mapM h hit
      obtain ⟨n, hn, heq⟩ := Option.bind_eq_some_iff.mp hgid
      obtain ⟨rfl, rfl⟩ := Prod.mk.inj (Option.some.inj heq)
      exact hn
    · intro hnum
      have hid := (hkeys id).mp (Dict.mem_keys_iff.mpr (by simp [hnum]))
      exact mem_of_mapM h hid (by simp [hnum])
  have hfst : gids.map Prod.fst = partition.subgraphs.keys := by
    apply map_of_mapM _ h
    intro gid it hit
    obtain ⟨num, -, heq⟩ := Option.bind_eq_some_iff.mp hit
    rw [← Option.some.inj heq]
  have hnodup : gids.Nodup := List.Nodup.of_map Prod.fst (hfst ▸ partition.subgraphs.nodup)
  exact (List.perm_ext_iff_of_nodup hnodup (List.Nodup.of_map _ partition.replica_nums.nodup)).mpr
    hmem

theorem searchAllocationSimple_exact
    (hkeys : ∀ id, id ∈ partition.replica_nums.keys ↔ id ∈ partition.subgraphs.keys)
    (h : searchAllocationSimple partition = some alloc) :
    ∃ names, names.Perm (replicaNames partition.replica_nums) ∧
      ∃ deal : Deal String, deal.Exact names ∧ deal.sets = alloc := by
  obtain ⟨gids, hgids, hret⟩ := Option.bind_eq_some_iff.mp h
  have hperm := (List.perm_insertionSort (fun g1 g2 : String × ℤ => g2.2 ≤ g1.2) gids).trans
    (gids_perm hkeys hgids)
  refine ⟨_, hperm.flatMap_right _, _, Deal.exact_foldl fun i _ => id_eq i, ?_⟩
  rw [← Option.some.inj hret]
  simp only [Deal.foldl_giveTimes]

/-- The names in the order in which they are dealt to if all have one number of replicas. -/
def turnNames (partition : PartitionDP) (repl_num : ℤ) : List String :=
  (List.range repl_num.toNat).flatMap fun _ => partition.subgraphs.keys

theorem turnNames_perm {repl_num : ℤ}
    (hkeys : ∀ id, id ∈ partition.replica_nums.keys ↔ id ∈ partition.subgraphs.keys)
    (hequal : ∀ it ∈ partition.replica_nums.entries, it.2 = repl_num) :
    (turnNames partition repl_num).Perm (replicaNames partition.replica_nums) := by
  rw [List.perm_iff_count]
  intro id
  have hnodup : partition.subgraphs.keys.Nodup := partition.subgraphs.nodup
  have hcount : (turnNames partition repl_num).count id =
      repl_num.toNat * if id ∈ partition.subgraphs.keys then 1 else 0 := by
    unfold turnNames
    simp [List.count_flatMap, Function.comp_def, hnodup.count]
  rw [hcount, count_replicaNames]
  by_cases hid : id ∈ partition.subgraphs.keys
  · obtain ⟨num, hnum⟩ := Option.isSome_iff_exists.mp (Dict.mem_keys_iff.mp ((hkeys id).mpr hid))
    have heq : num = repl_num := hequal (id, num) (Dict.mem_entries_iff.mpr hnum)
    simp [hid, hnum, heq]
  · have hnone := Dict.get_eq_none_iff.mpr (fun h => hid ((hkeys id).mp h))
    simp [hid, hnone]

theorem searchAllocation_eq {dev_count : ℕ} (hdev : dev_count ≠ 0) {repl_num : ℤ}
    (hlast : partition.replica_nums.entries.getLast?.map Prod.snd = some repl_num)
    (hnum : 0 ≤ repl_num) : searchAllocation partition dev_count =
      some ((turnNames partition repl_num).foldl (Deal.give (· % dev_count)) Deal.start).sets := by
  unfold searchAllocation turnNames
  rw [hlast, List.foldl_flatMap]
  simp [hdev, hnum, foldlM_some]

/-- A partition in which every subgraph has replicas, and there are devices for all of them. -/
structure PartitionDP.Replicated (partition : PartitionDP) (dev_count : ℕ) : Prop where
  nonempty : partition.subgraphs.keys ≠ []
  keys : ∀ id, id ∈ partition.replica_nums.keys ↔ id ∈ partition.subgraphs.keys
  positive : ∀ it ∈ partition.replica_nums.entries, 0 < it.2
  fits : (partition.replica_nums.entries.map Prod.snd).sum ≤ dev_count

section Replicated

variable {dev_count : ℕ} (hpart : partition.Replicated dev_count)

include hpart

theorem PartitionDP.Replicated.entries_ne_nil : partition.replica_nums.entries ≠ [] := by
  intro hnil
  obtain ⟨id, hid⟩ := List.exists_mem_of_ne_nil _ hpart.nonempty
  have hkey := (hpart.keys id).mpr hid
  simp [Dict.keys, hnil] at hkey

theorem searchAllocationFlat_packing : ∃ alloc, searchAllocationFlat partition = some alloc ∧
    ExactPacking partition.replica_nums alloc := by
  have hsome : ∃ alloc, searchAllocationFlat partition = some alloc := by
    have hne := hpart.entries_ne_nil
    unfold searchAllocationFlat
    cases hentries : partition.replica_nums.entries with
    | nil => exact absurd hentries hne
    | cons it entries => simp [gcdAll]
  obtain ⟨alloc, halloc⟩ := hsome
  obtain ⟨names, hnames, deal, hdeal, rfl⟩ := searchAllocationFlat_exact halloc
  exact ⟨_, halloc, ExactPacking.of_exact hpart.positive hnames hdeal⟩

theorem searchAllocationSimple_packing : ∃ alloc, searchAllocationSimple partition = some alloc ∧
    ExactPacking partition.replica_nums alloc := by
  have hsome : ∃ alloc, searchAllocationSimple partition = some alloc := by
    obtain ⟨gids, hgids⟩ : ∃ gids, (partition.subgraphs.keys.mapM fun gid => do
        return (gid, ← partition.replica_nums.get gid)) = some gids := by
      apply mapM_of_forall_some
      intro gid hgid
      obtain ⟨num, hnum⟩ :=
        Option.isSome_iff_exists.mp (Dict.mem_keys_iff.mp ((hpart.keys gid).mpr hgid))
      simp [hnum]
    unfold searchAllocationSimple
    rw [hgids]
    exact ⟨_, rfl⟩
  obtain ⟨alloc, halloc⟩ := hsome
  obtain ⟨names, hnames, deal, hdeal, rfl⟩ := searchAllocationSimple_exact hpart.keys halloc
  exact ⟨_, halloc, ExactPacking.of_exact hpart.positive hnames hdeal⟩

theorem searchAllocation_packing
    (hequal : ∀ it ∈ partition.replica_nums.entries, ∀ it' ∈ partition.replica_nums.entries,
      it.2 = it'.2) : ∃ alloc, searchAllocation partition dev_count = some alloc ∧
    ExactPacking partition.replica_nums alloc := by
  have hne := hpart.entries_ne_nil
  have hlast := List.getLast_mem hne
  have hnums : ∀ it ∈ partition.replica_nums.entries,
      it.2 = (partition.replica_nums.entries.getLast hne).2 :=
    fun it hit => hequal it hit _ hlast
  have hnames := turnNames_perm hpart.keys hnums
  have hlength : ((turnNames partition (partition.replica_nums.entries.getLast hne).2).length : ℤ) ≤
      dev_count := by
    rw [hnames.length_eq, length_replicaNames hpart.positive]
    exact hpart.fits
  have hdev : dev_count ≠ 0 := by
    intro hzero
    have hsum := hpart.fits
    have hpos := List.sum_pos (partition.replica_nums.entries.map Prod.snd)
      (by simpa using fun num id hit => hpart.positive (id, num) hit) (by simpa using hne)
    omega
  refine ⟨_, searchAllocation_eq hdev (by simp [List.getLast?_eq_getLast_of_ne_nil hne])
    (hpart.positive _ hlast).le, ExactPacking.of_exact hpart.positive hnames (Deal.exact_foldl ?_)⟩
  intro i hi
  exact Nat.mod_eq_of_lt (by omega)

end Replicated

end Search

/-- Whether a subgraph is another one, scaled for a number of replicas. -/
def ScaledFor (g : IRGraph) (num : ℤ) (batch_size : ℕ) (sg : IRGraph) : Prop :=
  ∃ replica, scaleGraph g g.name num 0 batch_size = some replica ∧
    sg = { replica with is_replicable := g.is_replicable }

section Replicate

variable {batch_size : ℕ} {subgraphs subgraphs' : Dict String IRGraph}

theorem replicateSubgraph_spec {it : String × ℤ}
    (h : replicateSubgraph batch_size subgraphs it = some subgraphs') :
    ∃ g sg, subgraphs.get it.1 = some g ∧ ScaledFor g (replicaNum g it.2) batch_size sg ∧
      ∀ id, subgraphs'.get id = if id = it.1 then some sg else subgraphs.get id := by
  obtain ⟨g, hg, hrest⟩ := Option.bind_eq_some_iff.mp h
  obtain ⟨replica, hreplica, heq⟩ := Option.bind_eq_some_iff.mp hrest
  refine ⟨g, _, hg, ⟨replica, hreplica, rfl⟩, fun id => ?_⟩
  rw [← Option.some.inj heq, Dict.get_set]

/-- Every subgraph is replicated from the one that was there before, as no name comes twice. -/
theorem foldlM_replicateSubgraph {l : List (String × ℤ)} (hl : (l.map Prod.fst).Nodup)
    (h : l.foldlM (replicateSubgraph batch_size) subgraphs = some subgraphs') (id : String) :
    (l.lookup id = none → subgraphs'.get id = subgraphs.get id) ∧
    ∀ num, l.lookup id = some num → ∃ g sg, subgraphs.get id = some g ∧
      ScaledFor g (replicaNum g num) batch_size sg ∧ subgraphs'.get id = some sg := by
  induction l generalizing subgraphs with
  | nil =>
    obtain rfl := Option.some.inj h
    simp
  | cons it l ih =>
    obtain ⟨hnot, hrest⟩ := List.nodup_cons.mp hl
    rw [List.foldlM_cons] at h
    obtain ⟨next, hnext, hfold⟩ := Option.bind_eq_some_iff.mp h
    obtain ⟨g, sg, hg, hsg, hget⟩ := replicateSubgraph_spec hnext
    obtain ⟨hnone, hsome⟩ := ih hrest hfold
    rw [List.lookup_cons]
    by_cases hid : id = it.1
    · subst hid
      have hlookup : l.lookup it.1 = none := by
        rw [List.lookup_eq_none_iff]
        intro e he
        have hne : it.1 ≠ e.1 := fun heq => hnot (heq ▸ List.mem_map_of_mem he)
        simpa using hne
      have hlast := hget it.1
      rw [if_pos rfl] at hlast
      simpa [hnone hlookup, hlast, hg] using hsg
    · have hsame := hget id
      rw [if_neg hid] at hsame
      simp only [beq_eq_false_iff_ne.mpr hid]
      rw [hsame] at hnone hsome
      exact ⟨hnone, hsome⟩

variable {partition rep : PartitionDP} {repl_nums : Dict String ℤ}

theorem replicate_replica_nums (h : replicate partition repl_nums batch_size = some rep) :
    rep.replica_nums = repl_nums := by
  obtain ⟨subgraphs, -, heq⟩ := Option.bind_eq_some_iff.mp h
  rw [← Option.some.inj heq]

theorem replicate_subgraph (h : replicate partition repl_nums batch_size = some rep)
    {id : String} {num : ℤ} (hnum : repl_nums.get id = some num) :
    ∃ g sg, partition.subgraphs.get id = some g ∧ ScaledFor g (replicaNum g num) batch_size sg ∧
      rep.subgraphs.get id = some sg := by
  obtain ⟨subgraphs, hfold, heq⟩ := Option.bind_eq_some_iff.mp h
  rw [← Option.some.inj heq]
  exact (foldlM_replicateSubgraph repl_nums.nodup hfold id).2 num hnum

/-- Subgraphs that have replicas are allocated to as many devices as they have replicas. -/
theorem card_allocated (hrep : replicate partition repl_nums batch_size = some rep)
    {alloc : Dict String (Finset ℕ)}
    (halloc : searchAllocationFlat rep = some alloc ∨ searchAllocationSimple rep = some alloc)
    {id : String} {num : ℤ} (hnum : repl_nums.get id = some num) :
    (allocated alloc id).card = num.toNat := by
  have hexact : ∃ names, names.Perm (replicaNames rep.replica_nums) ∧
      ∃ deal : Deal String, deal.Exact names ∧ deal.sets = alloc := by
    cases halloc with
    | inl hflat => exact searchAllocationFlat_exact hflat
    | inr hsimple =>
      apply searchAllocationSimple_exact _ hsimple
      intro id
      constructor
      · intro hid
        rw [replicate_replica_nums hrep] at hid
        obtain ⟨num, hnum⟩ := Option.isSome_iff_exists.mp (Dict.mem_keys_iff.mp hid)
        obtain ⟨g, sg, -, -, hsg⟩ := replicate_subgraph hrep hnum
        exact Dict.mem_keys_iff.mpr (by simp [hsg])
      · intro hid
        obtain ⟨gids, hgids, -⟩ := Option.bind_eq_some_iff.mp hsimple
        obtain ⟨it, hit⟩ := Option.isSome_iff_exists.mp (isSome_of_mapM hgids hid)
        obtain ⟨num, hnum, -⟩ := Option.bind_eq_some_iff.mp hit
        exact Dict.mem_keys_iff.mpr (by simp [hnum])
  obtain ⟨names, hnames, deal, hdeal, rfl⟩ := hexact
  have hcard := hdeal.card id
  rw [hnames.count_eq, count_replicaNames, replicate_replica_nums hrep, hnum] at hcard
  exact hcard

/-- Every subgraph has as many devices as it is scaled for. -/
def SlicedAsAllocated (partition rep : PartitionDP) (repl_nums : Dict String ℤ) (batch_size : ℕ)
    (alloc : Dict String (Finset ℕ)) : Prop :=
  ∀ id g num, partition.subgraphs.get id = some g → repl_nums.get id = some num →
    ∃ sg, rep.subgraphs.get id = some sg ∧ ScaledFor g (replicaNum g num) batch_size sg ∧
      (allocated alloc id).card = (replicaNum g num).toNat

/-- A number of replicas that is ignored is still recorded and gets its devices. -/
theorem slicedAsAllocated_iff (hrep : replicate partition repl_nums batch_size = some rep)
    {alloc : Dict String (Finset ℕ)}
    (halloc : searchAllocationFlat rep = some alloc ∨ searchAllocationSimple rep = some alloc) :
    SlicedAsAllocated partition rep repl_nums batch_size alloc ↔
      ∀ id g num, partition.subgraphs.get id = some g → repl_nums.get id = some num → 1 < num →
        g.is_replicable = true := by
  constructor
  · intro h id g num hg hnum hlt
    obtain ⟨sg, -, -, hcard⟩ := h id g num hg hnum
    rw [card_allocated hrep halloc hnum] at hcard
    by_contra hreplicable
    have hone : replicaNum g num = 1 := by simp [replicaNum, hlt, hreplicable]
    rw [hone] at hcard
    omega
  · intro h id g num hg hnum
    obtain ⟨g', sg, hg', hscaled, hsg⟩ := replicate_subgraph hrep hnum
    obtain rfl := Option.some.inj (hg.symm.trans hg')
    refine ⟨sg, hsg, hscaled, ?_⟩
    rw [card_allocated hrep halloc hnum]
    unfold replicaNum
    split_ifs with hcond
    · simp [h id g num hg hnum hcond.1] at hcond
    · rfl

/-- A graph that makes a batch of four without reading one. -/
def producerGraph : IRGraph where
  name := "a"
  nodes := []
  values := [("y", { name := "y", type := .tensor .FLOAT [4] false, is_batch := true })]
  input_names := []
  output_names := ["y"]

def producerPartition (is_replicable : Bool) : PartitionDP where
  id := "m"
  graph := producerGraph
  subgraphs := Dict.empty.set "a" { producerGraph with is_replicable := is_replicable }
  replica_nums := Dict.empty
  connections := []

/-- Two devices, each with the whole batch of four. -/
theorem not_slicedAsAllocated : ∃ rep alloc,
    replicate (producerPartition false) (Dict.empty.set "a" 2) 4 = some rep ∧
      searchAllocationSimple rep = some alloc ∧ (allocated alloc "a").card = 2 ∧
      (((rep.subgraphs.get "a").bind (·.getValue "y")).map (·.type.getTensorDim)) = some [4] ∧
      ¬ SlicedAsAllocated (producerPartition false) rep (Dict.empty.set "a" 2) 4 alloc := by
  refine ⟨_, _, rfl, rfl, by decide, by decide, ?_⟩
  intro h
  obtain ⟨sg, -, -, hcard⟩ := h "a" _ 2 rfl rfl
  revert hcard
  decide

theorem slicedAsAllocated_producer : ∃ rep alloc,
    replicate (producerPartition true) (Dict.empty.set "a" 2) 4 = some rep ∧
      searchAllocationSimple rep = some alloc ∧
      SlicedAsAllocated (producerPartition true) rep (Dict.empty.set "a" 2) 4 alloc := by
  refine ⟨_, _, rfl, rfl, (slicedAsAllocated_iff rfl (Or.inr rfl)).mpr ?_⟩
  intro id g num hg _ _
  unfold producerPartition at hg
  rw [Dict.get_set] at hg
  split_ifs at hg
  · rw [← Option.some.inj hg]
  · exact absurd hg (by simp)

end Replicate

end Rannc
