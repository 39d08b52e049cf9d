import Rannc.Common.BatchDims
import Rannc.Lib.Blocks
import Rannc.Lib.MachineInt

/-!
# Redistribution of a batch tensor between two rank sets

Both sides hold the tensor as consecutive intervals of elements, one for each rank in increasing
order. A sender walks over the intervals of the receivers and a receiver over those of the
senders; the two walks are one loop with the sides exchanged, and each yields the overlaps of the
intervals. Hence the exchange rebuilds the tensor on the receiving side, as long as the counts and
displacements fit into an `int`.
-/
namespace Rannc

open Blocks

/-- Every entry is an `int`. -/
structure RedistArgs where
  sendcounts : List ℤ
  recvcounts : List ℤ
  sdispls : List ℤ
  rdispls : List ℤ
  deriving DecidableEq, Repr

def INT_MAX : ℕ := 2147483647

/-- The position of a rank in the communicator of a group. -/
def getLocalRank (ranks : Finset ℕ) (rank : ℕ) : ℕ := (sortRanks ranks).idxOf rank

/-- The walk over the intervals of the other side, each given by its rank and size. An entry
holds the count exchanged with that rank and the displacement in the own buffer. -/
def overlapLoop (own_from own_to : ℕ) : ℕ → ℕ → RankMap ℕ → RankMap (ℕ × ℕ)
  | _, _, [] => []
  | offset, other_from, (rank, size) :: rest =>
    let other_to := other_from + size
    if own_from + offset ≤ other_to then
      let count := min (own_to - (own_from + offset)) (other_to - (own_from + offset))
      (rank, count, offset) ::
        if own_from + (offset + count) = own_to then []
        else overlapLoop own_from own_to (offset + count) other_to rest
    else if own_from + offset = own_to then []
    else overlapLoop own_from own_to offset other_to rest

/-- Where the interval of a rank starts: after the ranks before it. -/
def elemFrom (dist : RankMap (List ℕ)) (ranks : List ℕ) (rank : ℕ) : ℕ :=
  ((ranks.takeWhile (· ≠ rank)).map (distSize dist)).sum

/-- The counts and displacements of one rank towards the ranks of the other side. -/
def redistCounts (my_rank : ℕ) (own_dist other_dist : RankMap (List ℕ))
    (own_ranks other_ranks : List ℕ) : RankMap (ℕ × ℕ) :=
  let own_from := elemFrom own_dist own_ranks my_rank
  overlapLoop own_from (own_from + distSize own_dist my_rank) 0 0
    (other_ranks.map fun rank => (rank, distSize other_dist rank))

/-- The entries for the ranks of the group, zero where the walk left none. They are cut to `int`;
that they fit is asserted in debug builds only. -/
def groupArgs (group : Finset ℕ) (counts : RankMap (ℕ × ℕ)) : List (ℤ × ℤ) :=
  (sortRanks group).map fun r =>
    let entry := (counts.lookup r).getD (0, 0)
    (toInt entry.1, toInt entry.2)

def getRedistArgsSend (my_rank : ℕ) (src_dist dest_dist : RankMap (List ℕ))
    (src_ranks dest_ranks : Finset ℕ) : RedistArgs :=
  let args := groupArgs (src_ranks ∪ dest_ranks)
    (redistCounts my_rank src_dist dest_dist (sortRanks src_ranks) (sortRanks dest_ranks))
  let zeros := args.map fun _ => 0
  ⟨args.map Prod.fst, zeros, args.map Prod.snd, zeros⟩

def getRedistArgsRecv (my_rank : ℕ) (src_dist dest_dist : RankMap (List ℕ))
    (src_ranks dest_ranks : Finset ℕ) : RedistArgs :=
  let args := groupArgs (src_ranks ∪ dest_ranks)
    (redistCounts my_rank dest_dist src_dist (sortRanks dest_ranks) (sortRanks src_ranks))
  let zeros := args.map fun _ => 0
  ⟨zeros, args.map Prod.fst, zeros, args.map Prod.snd⟩

def getRedistArgs (my_rank total_batch_size : ℕ) (global_dim : List ℕ)
    (src_ranks dest_ranks : Finset ℕ) (split_index : ℕ) : RedistArgs :=
  let src_dist := calcDistBatchDims total_batch_size global_dim src_ranks split_index
  let dest_dist := calcDistBatchDims total_batch_size global_dim dest_ranks split_index
  if my_rank ∈ src_ranks then
    let sendArgs := getRedistArgsSend my_rank src_dist dest_dist src_ranks dest_ranks
    if my_rank ∈ dest_ranks then
      let recvArgs := getRedistArgsRecv my_rank src_dist dest_dist src_ranks dest_ranks
      { sendArgs with recvcounts := recvArgs.recvcounts, rdispls := recvArgs.rdispls }
    else sendArgs
  else if my_rank ∈ dest_ranks then
    getRedistArgsRecv my_rank src_dist dest_dist src_ranks dest_ranks
  else ⟨[], [], [], []⟩

/-! Entries for one peer of the group. -/
namespace RedistArgs

variable (args : RedistArgs) (group : Finset ℕ) (peer : ℕ)

def sendcount : ℤ := args.sendcounts.getD (getLocalRank group peer) 0
def recvcount : ℤ := args.recvcounts.getD (getLocalRank group peer) 0
def sdispl : ℤ := args.sdispls.getD (getLocalRank group peer) 0
def rdispl : ℤ := args.rdispls.getD (getLocalRank group peer) 0

end RedistArgs

section Exchange

variable {α : Type} (group : Finset ℕ) (args : ℕ → RedistArgs) (sendbuf : ℕ → List α)

/-- The elements `peer` addresses to `me`. -/
def sentBlock (peer me : ℕ) : List α :=
  slice (sendbuf peer) ((args peer).sdispl group me).toNat ((args peer).sendcount group me).toNat

/-- One round of `redist`: what arrives from `peer` is stored, when anything is expected from it.
A rank on both sides copies its own block by its send count. -/
def redistStep (me : ℕ) (buf : List α) (peer : ℕ) : List α :=
  let count := if peer = me then (args me).sendcount group me else (args me).recvcount group peer
  if 0 < count then
    write buf ((args me).rdispl group peer).toNat (sentBlock group args sendbuf peer me)
  else buf

def redist (me : ℕ) (recvbuf : List α) : List α :=
  (sortRanks group).foldl (redistStep group args sendbuf me) recvbuf

end Exchange

/-- An entry of the walk for the interval `[c, c + size)`: its count is the overlap with the own
interval `[a, b)`, and a displacement that is used points at the start of the overlap. -/
def OverlapEntry (a b c size : ℕ) (entry : Option (ℕ × ℕ)) : Prop :=
  let e := entry.getD (0, 0)
  e.1 = overlap a b c (c + size) ∧ (0 < e.1 → a + e.2 = max a c)

theorem OverlapEntry.toInt {a b c size : ℕ} {entry : Option (ℕ × ℕ)}
    (h : OverlapEntry a b c size entry) (hfits : 0 < overlap a b c (c + size) →
      overlap a b c (c + size) ≤ INT_MAX ∧ max a c ≤ a + INT_MAX) :
    toInt (entry.getD (0, 0)).1 = overlap a b c (c + size) ∧
      (0 < overlap a b c (c + size) → a + toInt (entry.getD (0, 0)).2 = (max a c : ℕ)) := by
  obtain ⟨hcount, hdispl⟩ := h
  unfold INT_MAX at hfits
  rw [hcount] at hdispl ⊢
  refine ⟨?_, fun hpos => ?_⟩
  · rcases Nat.eq_zero_or_pos (overlap a b c (c + size)) with hzero | hpos
    · rw [hzero]
      exact toInt_natCast (by decide)
    · exact toInt_natCast (by have := (hfits hpos).1; omega)
  · have hmax := hdispl hpos
    have hle := (hfits hpos).2
    rw [toInt_natCast (by omega), ← hmax, Nat.cast_add]

theorem overlapEntry_none {a b c size : ℕ} (h : overlap a b c (c + size) = 0) :
    OverlapEntry a b c size none := by
  simp [OverlapEntry, h]

theorem lookup_overlapLoop_of_not_mem (own_from own_to : ℕ) {rank : ℕ} :
    ∀ (others : RankMap ℕ) (offset other_from : ℕ), rank ∉ others.map Prod.fst →
      (overlapLoop own_from own_to offset other_from others).lookup rank = none := by
  intro others
  induction others with
  | nil =>
    intro _ _ _
    rfl
  | cons other rest ih =>
    intro offset other_from h
    rw [List.map_cons, List.mem_cons, not_or] at h
    have hne : (rank == other.1) = false := beq_eq_false_iff_ne.mpr h.1
    have hrest : ∀ offset', (if own_from + offset' = own_to then [] else
        overlapLoop own_from own_to offset' (other_from + other.2) rest).lookup rank = none := by
      intro offset'
      split_ifs
      · rfl
      · exact ih _ _ h.2
    rw [overlapLoop]
    by_cases hle : own_from + offset ≤ other_from + other.2
    · rw [if_pos hle, List.lookup_cons, hne]
      exact hrest _
    · rw [if_neg hle]
      exact hrest _

/-- The loop invariant: the walk stands at the start of the current interval or at the own start,
whichever is later, and has not passed the own end. -/
theorem overlapLoop_spec {a b : ℕ} : ∀ (others : RankMap ℕ) (offset f : ℕ),
    (others.map Prod.fst).Nodup → a + offset = max a f → max a f ≤ b →
    ∀ j (hj : j < others.length),
      OverlapEntry a b (f + start (others.map Prod.snd) j) others[j].2
        ((overlapLoop a b offset f others).lookup others[j].1) := by
  intro others
  induction others with
  | nil => simp
  | cons other rest ih =>
    intro offset f hnd hpos hb j hj
    obtain ⟨rank, size⟩ := other
    rw [List.map_cons, List.nodup_cons] at hnd
    cases j with
    | zero =>
      simp only [List.map_cons, start_zero, Nat.add_zero, List.getElem_cons_zero, overlapLoop]
      by_cases h : a + offset ≤ f + size
      · rw [if_pos h, List.lookup_cons_self]
        exact ⟨by simp only [Option.getD_some, overlap]; omega, fun _ => hpos⟩
      · rw [if_neg h]
        have hnone : overlap a b f (f + size) = 0 := by
          rw [overlap]
          omega
        split_ifs
        · exact overlapEntry_none hnone
        · rw [lookup_overlapLoop_of_not_mem a b rest _ _ hnd.1]
          exact overlapEntry_none hnone
    | succ j =>
      have hj' : j < rest.length := by simpa using hj
      have hne : (rest[j].1 == rank) = false := by
        refine beq_eq_false_iff_ne.mpr ?_
        rintro rfl
        exact hnd.1 (List.mem_map.mpr ⟨rest[j], List.getElem_mem hj', rfl⟩)
      simp only [List.map_cons, start_cons_succ, List.getElem_cons_succ, overlapLoop,
        ← Nat.add_assoc]
      -- past the own end every later overlap is empty, before it the walk goes on
      have hlater : ∀ offset', a + offset' = max a (min b (f + size)) →
          OverlapEntry a b (f + size + start (rest.map Prod.snd) j) rest[j].2
            ((if a + offset' = b then [] else overlapLoop a b offset' (f + size) rest).lookup
              rest[j].1) := by
        intro offset' hpos'
        split_ifs with hend
        · exact overlapEntry_none (by rw [overlap]; omega)
        · exact ih offset' (f + size) hnd.2 (by omega) (by omega) j hj'
      by_cases h : a + offset ≤ f + size
      · rw [if_pos h, List.lookup_cons, hne]
        have := hlater (offset + min (b - (a + offset)) (f + size - (a + offset))) (by omega)
        simpa only [← Nat.add_assoc] using this
      · rw [if_neg h]
        exact hlater offset (by omega)

theorem elemFrom_getElem (dist : RankMap (List ℕ)) {ranks : List ℕ} (hnd : ranks.Nodup) {i : ℕ}
    (hi : i < ranks.length) :
    elemFrom dist ranks ranks[i] = start (ranks.map (distSize dist)) i := by
  have htake : ranks.takeWhile (· ≠ ranks[i]) = ranks.take i := by
    induction ranks generalizing i with
    | nil => simp at hi
    | cons r ranks ih =>
      rw [List.nodup_cons] at hnd
      cases i with
      | zero => simp
      | succ i =>
        have hi' : i < ranks.length := by simpa using hi
        have hne : r ≠ ranks[i] := by
          rintro rfl
          exact hnd.1 (List.getElem_mem hi')
        simpa [hne] using ih hnd.2 hi'
  rw [elemFrom, htake, start, List.map_take]

theorem redistCounts_spec (own_dist other_dist : RankMap (List ℕ)) (own other : Finset ℕ)
    (me : ℕ) {peer : ℕ} (hpeer : peer ∈ other) :
    OverlapEntry (elemFrom own_dist (sortRanks own) me)
      (elemFrom own_dist (sortRanks own) me + distSize own_dist me)
      (elemFrom other_dist (sortRanks other) peer) (distSize other_dist peer)
      ((redistCounts me own_dist other_dist (sortRanks own) (sortRanks other)).lookup peer) := by
  obtain ⟨j, hj, rfl⟩ := List.getElem_of_mem ((mem_sortRanks other).2 hpeer)
  have h := overlapLoop_spec
    ((sortRanks other).map fun rank => (rank, distSize other_dist rank)) 0 0
    (by simpa [Function.comp_def] using nodup_sortRanks other)
    (by simp : elemFrom own_dist (sortRanks own) me + 0 = _)
    (by simp : _ ≤ elemFrom own_dist (sortRanks own) me + distSize own_dist me) j
    (by simpa using hj)
  rw [elemFrom_getElem other_dist (nodup_sortRanks other) hj]
  simpa [redistCounts, Function.comp_def] using h

section GroupArgs

variable {group : Finset ℕ} {counts : RankMap (ℕ × ℕ)} {r : ℕ} (hr : r ∈ group)

include hr

theorem groupArgs_getElem? : (groupArgs group counts)[getLocalRank group r]? =
    some (toInt ((counts.lookup r).getD (0, 0)).1, toInt ((counts.lookup r).getD (0, 0)).2) := by
  have hmem : r ∈ sortRanks group := (mem_sortRanks group).2 hr
  rw [groupArgs, List.getElem?_map, getLocalRank, List.getElem?_idxOf hmem, Option.map_some]

theorem groupArgs_count : ((groupArgs group counts).map Prod.fst).getD (getLocalRank group r) 0 =
    toInt ((counts.lookup r).getD (0, 0)).1 := by
  rw [List.getD_eq_getElem?_getD, List.getElem?_map, groupArgs_getElem? hr, Option.map_some,
    Option.getD_some]

theorem groupArgs_displ : ((groupArgs group counts).map Prod.snd).getD (getLocalRank group r) 0 =
    toInt ((counts.lookup r).getD (0, 0)).2 := by
  rw [List.getD_eq_getElem?_getD, List.getElem?_map, groupArgs_getElem? hr, Option.map_some,
    Option.getD_some]

end GroupArgs

section Args

variable (me B : ℕ) (dim : List ℕ) (S D : Finset ℕ) (split : ℕ)

/-- What a rank walks over as a sender. -/
def sendEntry (peer : ℕ) : ℕ × ℕ :=
  ((redistCounts me (calcDistBatchDims B dim S split) (calcDistBatchDims B dim D split)
    (sortRanks S) (sortRanks D)).lookup peer).getD (0, 0)

variable {me S D}

theorem getRedistArgs_send (hme : me ∈ S) {d : ℕ} (hd : d ∈ S ∪ D) :
    (getRedistArgs me B dim S D split).sendcount (S ∪ D) d =
        toInt (sendEntry me B dim S D split d).1 ∧
      (getRedistArgs me B dim S D split).sdispl (S ∪ D) d =
        toInt (sendEntry me B dim S D split d).2 := by
  unfold getRedistArgs
  dsimp only
  rw [if_pos hme]
  split_ifs
  · exact ⟨groupArgs_count hd, groupArgs_displ hd⟩
  · exact ⟨groupArgs_count hd, groupArgs_displ hd⟩

theorem getRedistArgs_recv (hme : me ∈ D) {s : ℕ} (hs : s ∈ S ∪ D) :
    (getRedistArgs me B dim S D split).recvcount (S ∪ D) s =
        toInt (sendEntry me B dim D S split s).1 ∧
      (getRedistArgs me B dim S D split).rdispl (S ∪ D) s =
        toInt (sendEntry me B dim D S split s).2 := by
  unfold getRedistArgs
  dsimp only
  rw [if_pos hme]
  split_ifs
  · exact ⟨groupArgs_count hs, groupArgs_displ hs⟩
  · exact ⟨groupArgs_count hs, groupArgs_displ hs⟩

variable {B dim split}

theorem getRedistArgs_sendcount_eq_zero (hme : me ∉ S) (r : ℕ) :
    (getRedistArgs me B dim S D split).sendcount (S ∪ D) r = 0 := by
  unfold getRedistArgs RedistArgs.sendcount
  dsimp only
  rw [if_neg hme]
  split_ifs
  · simp only [getRedistArgsRecv, List.getD_eq_getElem?_getD, List.getElem?_map]
    cases (groupArgs (S ∪ D) _)[getLocalRank (S ∪ D) r]? <;> rfl
  · rfl

end Args

section Intervals

/-- First element of a rank's interval, for the shapes `calcDistBatchDims` gives a rank set. -/
def rankFrom (B : ℕ) (dim : List ℕ) (ranks : Finset ℕ) (split rank : ℕ) : ℕ :=
  elemFrom (calcDistBatchDims B dim ranks split) (sortRanks ranks) rank

def rankSize (B : ℕ) (dim : List ℕ) (ranks : Finset ℕ) (split rank : ℕ) : ℕ :=
  distSize (calcDistBatchDims B dim ranks split) rank

/-- The elements rank `s` of the one side and rank `d` of the other have in common. -/
def rankOverlap (B : ℕ) (dim : List ℕ) (S D : Finset ℕ) (split s d : ℕ) : ℕ :=
  overlap (rankFrom B dim S split s) (rankFrom B dim S split s + rankSize B dim S split s)
    (rankFrom B dim D split d) (rankFrom B dim D split d + rankSize B dim D split d)

variable {B : ℕ} (hB : 0 < B) (k : ℕ) (rest : List ℕ) {ranks : Finset ℕ} (split : ℕ)

include hB

theorem rankFrom_add_rankSize_le {r : ℕ} (hr : r ∈ ranks) :
    rankFrom B (k * B :: rest) ranks split r + rankSize B (k * B :: rest) ranks split r ≤
      productDim (k * B :: rest) := by
  obtain ⟨i, hi, rfl⟩ := List.getElem_of_mem ((mem_sortRanks ranks).2 hr)
  have h := start_add_le_sum ((sortRanks ranks).map
    (distSize (calcDistBatchDims B (k * B :: rest) ranks split))) (by simpa using hi)
  rw [List.getElem_map] at h
  rw [rankFrom, elemFrom_getElem _ (nodup_sortRanks ranks) hi,
    ← sum_distSize ranks split hB k rest ⟨_, hr⟩]
  exact h

theorem exists_rank_of_lt (hranks : ranks.Nonempty) {x : ℕ} (hx : x < productDim (k * B :: rest)) :
    ∃ r ∈ ranks, rankFrom B (k * B :: rest) ranks split r ≤ x ∧
      x < rankFrom B (k * B :: rest) ranks split r + rankSize B (k * B :: rest) ranks split r := by
  rw [← sum_distSize ranks split hB k rest hranks] at hx
  obtain ⟨i, hi, hlo, hhi⟩ := exists_block _ hx
  have hi' : i < (sortRanks ranks).length := by simpa using hi
  refine ⟨(sortRanks ranks)[i], (mem_sortRanks ranks).1 (List.getElem_mem hi'), ?_⟩
  rw [rankFrom, elemFrom_getElem _ (nodup_sortRanks ranks) hi']
  exact ⟨hlo, by simpa [rankSize] using hhi⟩

omit hB in
theorem slice_flatMap {α : Type} {buf : ℕ → List α}
    (hbuf : ∀ r ∈ ranks, (buf r).length = rankSize B (k * B :: rest) ranks split r)
    {r : ℕ} (hr : r ∈ ranks) :
    slice ((sortRanks ranks).flatMap buf) (rankFrom B (k * B :: rest) ranks split r)
      (rankSize B (k * B :: rest) ranks split r) = buf r := by
  obtain ⟨i, hi, rfl⟩ := List.getElem_of_mem ((mem_sortRanks ranks).2 hr)
  have hlen : ((sortRanks ranks).map buf).map List.length = (sortRanks ranks).map
      (distSize (calcDistBatchDims B (k * B :: rest) ranks split)) := by
    rw [List.map_map]
    exact List.map_congr_left fun r hr => hbuf r ((mem_sortRanks ranks).1 hr)
  have h := slice_flatten ((sortRanks ranks).map buf) _ hlen (by simpa using hi)
    (by simpa using hi)
  rw [rankFrom, elemFrom_getElem _ (nodup_sortRanks ranks) hi]
  simpa [rankSize, List.flatMap] using h

theorem flatMap_eq_of_slices (hranks : ranks.Nonempty) {α : Type} {xs : List α} {buf : ℕ → List α}
    (hlen : xs.length = productDim (k * B :: rest))
    (hbuf : ∀ r ∈ ranks, buf r = slice xs (rankFrom B (k * B :: rest) ranks split r)
      (rankSize B (k * B :: rest) ranks split r)) :
    (sortRanks ranks).flatMap buf = xs := by
  refine flatten_eq_of_slices xs ((sortRanks ranks).map
    (distSize (calcDistBatchDims B (k * B :: rest) ranks split))) _ ?_ (by simp) fun i _ hi => ?_
  · rw [sum_distSize ranks split hB k rest hranks, hlen]
  · have hi' : i < (sortRanks ranks).length := by simpa using hi
    have h := hbuf (sortRanks ranks)[i] ((mem_sortRanks ranks).1 (List.getElem_mem hi'))
    rw [rankFrom, elemFrom_getElem _ (nodup_sortRanks ranks) hi'] at h
    simpa [rankSize] using h

theorem length_flatMap_eq (hranks : ranks.Nonempty) {α : Type} {buf : ℕ → List α}
    (hbuf : ∀ r ∈ ranks, (buf r).length = rankSize B (k * B :: rest) ranks split r) :
    ((sortRanks ranks).flatMap buf).length = productDim (k * B :: rest) := by
  rw [List.length_flatMap, ← sum_distSize ranks split hB k rest hranks]
  congr 1
  exact List.map_congr_left fun r hr => hbuf r ((mem_sortRanks ranks).1 hr)

end Intervals

/-- Counts and displacements that are used fit into `int`. -/
def RedistFits (B : ℕ) (dim : List ℕ) (S D : Finset ℕ) (split : ℕ) : Prop :=
  ∀ s ∈ S, ∀ d ∈ D, 0 < rankOverlap B dim S D split s d →
    rankOverlap B dim S D split s d ≤ INT_MAX ∧
    max (rankFrom B dim S split s) (rankFrom B dim D split d) ≤
      rankFrom B dim S split s + INT_MAX ∧
    max (rankFrom B dim S split s) (rankFrom B dim D split d) ≤
      rankFrom B dim D split d + INT_MAX

theorem redistFits_of_le {B : ℕ} (hB : 0 < B) (k : ℕ) (rest : List ℕ) (S D : Finset ℕ)
    (split : ℕ) (hsize : productDim (k * B :: rest) ≤ INT_MAX) :
    RedistFits B (k * B :: rest) S D split := by
  intro s hs d hd hpos
  have hsend := rankFrom_add_rankSize_le hB k rest split hs
  unfold rankOverlap overlap at hpos ⊢
  omega

section Lossless

variable {S D : Finset ℕ} {B k split : ℕ} {rest : List ℕ} {args : ℕ → RedistArgs}

section Counts

variable (hargs : ∀ r ∈ S ∪ D, args r = getRedistArgs r B (k * B :: rest) S D split)

include hargs

theorem sendcount_eq_toInt {s d : ℕ} (hs : s ∈ S) (hd : d ∈ D) :
    (args s).sendcount (S ∪ D) d = toInt (rankOverlap B (k * B :: rest) S D split s d) := by
  have h := redistCounts_spec (calcDistBatchDims B (k * B :: rest) S split)
    (calcDistBatchDims B (k * B :: rest) D split) S D s hd
  rw [hargs s (Finset.mem_union_left D hs),
    (getRedistArgs_send B _ split hs (Finset.mem_union_right S hd)).1]
  exact congrArg (fun n : ℕ => toInt n) h.1

theorem recvcount_eq_toInt {s d : ℕ} (hs : s ∈ S) (hd : d ∈ D) :
    (args d).recvcount (S ∪ D) s = toInt (rankOverlap B (k * B :: rest) S D split s d) := by
  have h := redistCounts_spec (calcDistBatchDims B (k * B :: rest) D split)
    (calcDistBatchDims B (k * B :: rest) S split) D S d hs
  rw [hargs d (Finset.mem_union_right S hd),
    (getRedistArgs_recv B _ split hd (Finset.mem_union_left D hs)).1, rankOverlap, overlap_comm]
  exact congrArg (fun n : ℕ => toInt n) h.1

theorem sendcount_eq_zero {r : ℕ} (hr : r ∈ S ∪ D) (hrS : r ∉ S) (d : ℕ) :
    (args r).sendcount (S ∪ D) d = 0 := by
  rw [hargs r hr]
  exact getRedistArgs_sendcount_eq_zero hrS d

theorem recvcount_eq_zero {r d : ℕ} (hr : r ∈ S ∪ D) (hrS : r ∉ S) (hd : d ∈ D) :
    (args d).recvcount (S ∪ D) r = 0 := by
  rw [hargs d (Finset.mem_union_right S hd), (getRedistArgs_recv B _ split hd hr).1, sendEntry,
    redistCounts, lookup_overlapLoop_of_not_mem]
  · exact toInt_natCast (n := 0) (by decide)
  · simpa [Function.comp_def] using hrS

variable (hfits : RedistFits B (k * B :: rest) S D split)

include hfits

theorem sendcount_eq {s d : ℕ} (hs : s ∈ S) (hd : d ∈ D) :
    (args s).sendcount (S ∪ D) d = rankOverlap B (k * B :: rest) S D split s d ∧
      (0 < rankOverlap B (k * B :: rest) S D split s d →
        rankFrom B (k * B :: rest) S split s + (args s).sdispl (S ∪ D) d =
          (max (rankFrom B (k * B :: rest) S split s)
            (rankFrom B (k * B :: rest) D split d) : ℕ)) := by
  have h := redistCounts_spec (calcDistBatchDims B (k * B :: rest) S split)
    (calcDistBatchDims B (k * B :: rest) D split) S D s hd
  have hsend := getRedistArgs_send B (k * B :: rest) split hs
    (Finset.mem_union_right S hd)
  rw [hargs s (Finset.mem_union_left D hs), hsend.1, hsend.2]
  exact h.toInt fun hpos => ⟨(hfits s hs d hd hpos).1, (hfits s hs d hd hpos).2.1⟩

theorem recvcount_eq {s d : ℕ} (hs : s ∈ S) (hd : d ∈ D) :
    (args d).recvcount (S ∪ D) s = rankOverlap B (k * B :: rest) S D split s d ∧
      (0 < rankOverlap B (k * B :: rest) S D split s d →
        rankFrom B (k * B :: rest) D split d + (args d).rdispl (S ∪ D) s =
          (max (rankFrom B (k * B :: rest) S split s)
            (rankFrom B (k * B :: rest) D split d) : ℕ)) := by
  have h := redistCounts_spec (calcDistBatchDims B (k * B :: rest) D split)
    (calcDistBatchDims B (k * B :: rest) S split) D S d hs
  have hrecv := getRedistArgs_recv B (k * B :: rest) split hd
    (Finset.mem_union_left D hs)
  rw [hargs d (Finset.mem_union_right S hd), hrecv.1, hrecv.2]
  have hoverlap : rankOverlap B (k * B :: rest) S D split s d =
    rankOverlap B (k * B :: rest) D S split d s := overlap_comm ..
  have hpair := hfits s hs d hd
  rw [hoverlap, max_comm] at *
  exact h.toInt fun hpos => ⟨(hpair hpos).1, (hpair hpos).2.2⟩

theorem redistStep_count {d peer : ℕ} (hd : d ∈ D) (hpeer : peer ∈ S ∪ D) :
    (if peer = d then (args d).sendcount (S ∪ D) d else (args d).recvcount (S ∪ D) peer) =
      ((if peer ∈ S then rankOverlap B (k * B :: rest) S D split peer d else 0 : ℕ) : ℤ) := by
  by_cases hS : peer ∈ S
  · rw [if_pos hS]
    split_ifs with he
    · subst he
      exact (sendcount_eq hargs hfits hS hd).1
    · exact (recvcount_eq hargs hfits hS hd).1
  · rw [if_neg hS]
    split_ifs with he
    · subst he
      exact sendcount_eq_zero hargs hpeer hS peer
    · exact recvcount_eq_zero hargs hpeer hS hd

end Counts

variable (hargs : ∀ r ∈ S ∪ D, args r = getRedistArgs r B (k * B :: rest) S D split)
  (hfits : RedistFits B (k * B :: rest) S D split)

include hargs hfits

section Data

variable {α : Type} {sendbuf : ℕ → List α} {xs : List α}

/-- Every position that a sender in `seen` covers holds its element of the tensor `xs`. -/
def Filled (B : ℕ) (dim : List ℕ) (S D : Finset ℕ) (split : ℕ) (xs : List α) (d : ℕ)
    (seen : List ℕ) (buf : List α) : Prop :=
  buf.length = rankSize B dim D split d ∧
    ∀ s ∈ seen, s ∈ S → ∀ x < rankSize B dim D split d,
      rankFrom B dim S split s ≤ rankFrom B dim D split d + x →
      rankFrom B dim D split d + x < rankFrom B dim S split s + rankSize B dim S split s →
      buf[x]? = xs[rankFrom B dim D split d + x]?

variable (hB : 0 < B) (hlen : xs.length = productDim (k * B :: rest))
  (hsend : ∀ s ∈ S, sendbuf s = slice xs (rankFrom B (k * B :: rest) S split s)
    (rankSize B (k * B :: rest) S split s))

include hB hlen hsend

theorem redistStep_filled {d peer : ℕ} (hd : d ∈ D) (hpeer : peer ∈ S ∪ D) {seen : List ℕ}
    {buf : List α} (hbuf : Filled B (k * B :: rest) S D split xs d seen buf) :
    Filled B (k * B :: rest) S D split xs d (peer :: seen)
      (redistStep (S ∪ D) args sendbuf d buf peer) := by
  obtain ⟨hbuflen, hbuf⟩ := hbuf
  simp only [redistStep, redistStep_count hargs hfits hd hpeer, Nat.cast_pos]
  by_cases hS : peer ∈ S
  · rw [if_pos hS]
    obtain ⟨hsc, hsd⟩ := sendcount_eq hargs hfits hS hd
    obtain ⟨-, hrd⟩ := recvcount_eq hargs hfits hS hd
    have htop := rankFrom_add_rankSize_le hB k rest split hS
    by_cases hpos : 0 < rankOverlap B (k * B :: rest) S D split peer d
    · rw [if_pos hpos]
      replace hsd := hsd hpos
      replace hrd := hrd hpos
      simp only [rankOverlap, overlap] at hsc hpos
      generalize hcount : ((args peer).sendcount (S ∪ D) d).toNat = count
      generalize hsdispl : ((args peer).sdispl (S ∪ D) d).toNat = sdispl
      generalize hrdispl : ((args d).rdispl (S ∪ D) peer).toNat = rdispl
      have hcommon : rankFrom B (k * B :: rest) S split peer + sdispl =
          rankFrom B (k * B :: rest) D split d + rdispl := by omega
      -- the block of the peer is the common part of the two intervals
      have hblock : sentBlock (S ∪ D) args sendbuf peer d =
          slice xs (rankFrom B (k * B :: rest) D split d + rdispl) count := by
        rw [sentBlock, hcount, hsdispl, hsend peer hS, slice_slice _ (by omega), hcommon]
      have hblocklen : (sentBlock (S ∪ D) args sendbuf peer d).length = count := by
        rw [hblock, length_slice (by omega)]
      have hfit : rdispl + (sentBlock (S ∪ D) args sendbuf peer d).length ≤ buf.length := by
        omega
      refine ⟨by rw [length_write hfit, hbuflen], fun s hs hsS x hx hlo hhi => ?_⟩
      rw [getElem?_write hfit]
      split_ifs with hin
      · rw [hblock, getElem?_slice, if_pos (by omega)]
        congr 1
        omega
      · rcases List.mem_cons.mp hs with rfl | hs
        · omega
        · exact hbuf s hs hsS x hx hlo hhi
    · rw [if_neg hpos]
      simp only [rankOverlap, overlap] at hpos
      refine ⟨hbuflen, fun s hs hsS x hx hlo hhi => ?_⟩
      rcases List.mem_cons.mp hs with rfl | hs
      · omega
      · exact hbuf s hs hsS x hx hlo hhi
  · rw [if_neg hS, if_neg (Nat.lt_irrefl 0)]
    refine ⟨hbuflen, fun s hs hsS x hx hlo hhi => ?_⟩
    rcases List.mem_cons.mp hs with rfl | hs
    · exact absurd hsS hS
    · exact hbuf s hs hsS x hx hlo hhi

/-- After all peers every position holds its element, since the senders cover the tensor. -/
theorem redist_eq_slice (hS : S.Nonempty) {d : ℕ} (hd : d ∈ D) {recvbuf : List α}
    (hrecv : recvbuf.length = rankSize B (k * B :: rest) D split d) :
    redist (S ∪ D) args sendbuf d recvbuf = slice xs (rankFrom B (k * B :: rest) D split d)
      (rankSize B (k * B :: rest) D split d) := by
  have hrun : ∀ (peers seen : List ℕ) (buf : List α), (∀ peer ∈ peers, peer ∈ S ∪ D) →
      Filled B (k * B :: rest) S D split xs d seen buf →
      Filled B (k * B :: rest) S D split xs d (peers.reverse ++ seen)
        (peers.foldl (redistStep (S ∪ D) args sendbuf d) buf) := by
    intro peers
    induction peers with
    | nil =>
      intro seen buf _ h
      exact h
    | cons peer peers ih =>
      intro seen buf hpeers h
      rw [List.reverse_cons, List.append_assoc]
      refine ih _ _ (fun p hp => hpeers p (List.mem_cons_of_mem _ hp)) ?_
      exact redistStep_filled hargs hfits hB hlen hsend hd (hpeers peer List.mem_cons_self) h
  obtain ⟨hbuflen, hfilled⟩ := hrun (sortRanks (S ∪ D)) [] recvbuf
    (fun peer hpeer => (mem_sortRanks _).1 hpeer) ⟨hrecv, by simp⟩
  have htop := rankFrom_add_rankSize_le hB k rest split hd
  refine List.ext_getElem? fun x => ?_
  rw [getElem?_slice]
  split_ifs with hx
  · obtain ⟨s, hs, hlo, hhi⟩ := exists_rank_of_lt hB k rest split hS
      (by omega : rankFrom B (k * B :: rest) D split d + x < productDim (k * B :: rest))
    refine hfilled s ?_ hs x hx hlo hhi
    simpa [mem_sortRanks] using Or.inl hs
  · exact List.getElem?_eq_none (by rw [redist, hbuflen]; omega)

end Data

end Lossless

/-- Both ends of every pair agree on the count, which is the overlap of their intervals, and on
where it starts; the receivers together end up with what the senders held, whatever the receive
buffers contained. -/
structure RedistLossless (B : ℕ) (dim : List ℕ) (S D : Finset ℕ) (split : ℕ) : Prop where
  counts : ∀ s ∈ S, ∀ d ∈ D,
    (getRedistArgs s B dim S D split).sendcount (S ∪ D) d = rankOverlap B dim S D split s d ∧
      (getRedistArgs d B dim S D split).recvcount (S ∪ D) s = rankOverlap B dim S D split s d
  displs : ∀ s ∈ S, ∀ d ∈ D, 0 < rankOverlap B dim S D split s d →
    rankFrom B dim S split s + (getRedistArgs s B dim S D split).sdispl (S ∪ D) d =
        (max (rankFrom B dim S split s) (rankFrom B dim D split d) : ℕ) ∧
      rankFrom B dim D split d + (getRedistArgs d B dim S D split).rdispl (S ∪ D) s =
        (max (rankFrom B dim S split s) (rankFrom B dim D split d) : ℕ)
  data : ∀ {α : Type} (sendbuf recvbuf : ℕ → List α),
    (∀ s ∈ S, (sendbuf s).length = rankSize B dim S split s) →
    (∀ d ∈ D, (recvbuf d).length = rankSize B dim D split d) →
    ((sortRanks D).flatMap fun d => redist (S ∪ D)
        (fun r => getRedistArgs r B dim S D split) sendbuf d (recvbuf d)) =
      (sortRanks S).flatMap sendbuf

/-- The arguments of ranks 0 and 1 handing eight elements over to ranks 1, 2 and 3. -/
def handOverArgs (r : ℕ) : RedistArgs :=
  getRedistArgs r 4 (2 * 4 :: []) {0, 1} {1, 2, 3} 1

def handOverBuf (s : ℕ) : List ℕ := if s = 0 then [10, 11, 12, 13] else [14, 15, 16, 17]

end Rannc
