import Rannc.Graph.Closed
import Rannc.Graph.GraphMem
import Rannc.Graph.MLGraph
import Rannc.Lib.BestFirst

/-!
# Search for small cuts

A split of the vertices in topological order into blocks is improved by moving its cut positions.
The search takes the best split that is open, opens its neighbours and forgets it.
-/
namespace Rannc

open Rannc.Digraph

/-- A vertex belongs to a later block only if it is an operator. -/
def setRank (split : List UInt64) (st : BGraph × ℕ × ℕ) (v : ℕ) : BGraph × ℕ × ℕ :=
  let (g, rank, index) := st
  let rank :=
    if (∃ s ∈ split[rank]?, s.toNat ≤ index) ∧ (g.info v).type = .NODE then rank + 1 else rank
  (g.set_ranks v (insert rank (g.ranks v)), rank, index + 1)

/-- The ranks that the vertices had are cleared. -/
def setRanksOnGraph (sort : TopologicalSort) (g : BGraph) (split : List UInt64) : BGraph :=
  ((all_nodes_topo sort g).foldl (setRank split) (g.erase, 0, 0)).1

def calcCutSize (p : Partition) : Option ℕ := do
  let sizes ← p.connections.mapM fun con => do (← p.graph.getValue con.value).getSizeInByte
  return sizes.sum % 2 ^ 64

/-- The size of the cut that a split makes, whatever ranks the graph has before. -/
def splitCutSize (sort : TopologicalSort) (set_order : SetOrder) (g : BGraph)
    (split : List UInt64) : Option ℕ := do
  let g := fixNonBatchRanks sort (setRanksOnGraph sort g split)
  calcCutSize (← createPartition sort set_order g)

structure CutSearchState where
  cut_size : ℕ
  split : List UInt64
  deriving DecidableEq

def MAX_SEARCH_ITER : ℕ := 10

/-- The states are traversed in an order that is not specified. -/
def chooseBestState (order : MapOrder CutSearchState) (states : List CutSearchState) :
    CutSearchState :=
  (order.order states).foldl
    (fun best_state it => if it.cut_size < best_state.cut_size then it else best_state)
    ⟨SIZE_MAX, []⟩

/-- The splits with one cut position moved by one; the last position is the end. -/
def testSplits (split : List UInt64) : List (List UInt64) :=
  (List.range (split.length - 1)).flatMap fun idx =>
    [split.modify idx (· - 1), split.modify idx (· + 1)]

structure CutSearch where
  openStates : List CutSearchState
  visited : List (List UInt64)

section Search

variable (cutSize : List UInt64 → Option ℕ)

def CutSearch.test (search : CutSearch) (test_split : List UInt64) : Option CutSearch :=
  if test_split ∈ search.visited then some search
  else do
    let test_cut_size ← cutSize test_split
    let test_state : CutSearchState := ⟨test_cut_size, test_split⟩
    some
      { openStates :=
          if test_state ∈ search.openStates then search.openStates
          else search.openStates ++ [test_state]
        visited := test_split :: search.visited }

/-- Without a best state there is no split whose positions could be moved. -/
def CutSearch.expand (order : MapOrder CutSearchState) (search : CutSearch) : Option CutSearch := do
  let state := chooseBestState order search.openStates
  guard (state.split ≠ [])
  let search ← (testSplits state.split).foldlM (CutSearch.test cutSize) search
  some { search with openStates := search.openStates.erase state }

def CutSearch.loop (order : ℕ → MapOrder CutSearchState) : ℕ → ℕ → CutSearch → Option CutSearch
  | 0, _, search => some search
  | n + 1, iter_idx, search =>
    if search.openStates = [] then some search
    else do
      CutSearch.loop order n (iter_idx + 1) (← search.expand cutSize (order iter_idx))

/-- Nothing is ever put into the closed set. -/
def searchCuts (order : ℕ → MapOrder CutSearchState) (split : List UInt64) :
    Option CutSearchState := do
  let cut_size ← cutSize split
  let search ← CutSearch.loop cutSize order MAX_SEARCH_ITER 0 ⟨[⟨cut_size, split⟩], []⟩
  some (chooseBestState (order MAX_SEARCH_ITER) search.openStates)

end Search

/-- Each traversal of a set of states has an order of its own. -/
def doSearchCuts (sort : TopologicalSort) (set_order : SetOrder)
    (order : ℕ → MapOrder CutSearchState) (split : List UInt64) (g : BGraph) :
    Option CutSearchState :=
  searchCuts (splitCutSize sort set_order g) order split

section Best

theorem foldl_best_spec (states : List CutSearchState) (best : CutSearchState) :
    let found := states.foldl
      (fun best_state it => if it.cut_size < best_state.cut_size then it else best_state) best
    (found = best ∨ found ∈ states ∧ found.cut_size < best.cut_size) ∧
      ∀ s ∈ states, found.cut_size ≤ s.cut_size := by
  induction states generalizing best with
  | nil => simp
  | cons s states ih =>
    dsimp only at ih ⊢
    rw [List.foldl_cons]
    have hrest := ih (if s.cut_size < best.cut_size then s else best)
    generalize states.foldl _ (if s.cut_size < best.cut_size then s else best) = found at hrest ⊢
    obtain ⟨hfound, hleast⟩ := hrest
    by_cases hs : s.cut_size < best.cut_size
    · rw [if_pos hs] at hfound
      have hle : found.cut_size ≤ s.cut_size := by
        cases hfound with
        | inl heq => rw [heq]
        | inr hlt => exact hlt.2.le
      refine ⟨Or.inr ⟨?_, by omega⟩, ?_⟩
      · cases hfound with
        | inl heq => simp [heq]
        | inr hmem => simp [hmem.1]
      · exact List.forall_mem_cons.mpr ⟨hle, hleast⟩
    · rw [if_neg hs] at hfound
      have hle : found.cut_size ≤ best.cut_size := by
        cases hfound with
        | inl heq => rw [heq]
        | inr hlt => exact hlt.2.le
      refine ⟨hfound.imp_right fun h => ⟨List.mem_cons_of_mem s h.1, h.2⟩, ?_⟩
      exact List.forall_mem_cons.mpr ⟨by omega, hleast⟩

variable (order : MapOrder CutSearchState) {states : List CutSearchState}

theorem chooseBestState_le {s : CutSearchState} (hs : s ∈ states) :
    (chooseBestState order states).cut_size ≤ s.cut_size :=
  (foldl_best_spec _ _).2 s ((order.perm states).mem_iff.mpr hs)

theorem chooseBestState_mem (states : List CutSearchState) :
    chooseBestState order states = ⟨SIZE_MAX, []⟩ ∨
    chooseBestState order states ∈ states ∧
      (chooseBestState order states).cut_size < SIZE_MAX :=
  (foldl_best_spec _ _).1.imp_right fun h => ⟨(order.perm states).mem_iff.mp h.1, h.2⟩

theorem chooseBestState_mem_of_lt {s : CutSearchState} (hs : s ∈ states)
    (hlt : s.cut_size < SIZE_MAX) : chooseBestState order states ∈ states ∧
      (chooseBestState order states).cut_size < SIZE_MAX := by
  cases chooseBestState_mem order states with
  | inr hmem => exact hmem
  | inl heq =>
    have hle := chooseBestState_le order hs
    rw [heq] at hle
    exact absurd hle (by simpa using hlt)

/-- The states with a split come first. -/
def splitFirst (split : List UInt64) : MapOrder CutSearchState where
  order l := l.filter (fun s => s.split = split) ++ l.filter fun s => !decide (s.split = split)
  perm l := List.filter_append_perm (fun s => decide (s.split = split)) l

theorem foldl_best_eq {best : CutSearchState} (h : ∀ s ∈ states, best.cut_size ≤ s.cut_size) :
    states.foldl (fun best_state it => if it.cut_size < best_state.cut_size then it else best_state)
      best = best := by
  induction states with
  | nil => rfl
  | cons s states ih =>
    have hs := h s (by simp)
    rw [List.foldl_cons, if_neg (by omega)]
    exact ih fun t ht => h t (by simp [ht])

theorem chooseBestState_splitFirst {s : CutSearchState} (hs : s ∈ states)
    (hlt : s.cut_size < SIZE_MAX) (hleast : ∀ t ∈ states, s.cut_size ≤ t.cut_size)
    (honly : ∀ t ∈ states, t.split = s.split → t = s) :
    chooseBestState (splitFirst s.split) states = s := by
  have hmem : s ∈ states.filter fun t => t.split = s.split := by simp [hs]
  obtain ⟨first, rest, hfirst⟩ := List.exists_cons_of_ne_nil (List.ne_nil_of_mem hmem)
  have heq : first = s := by
    have hin : first ∈ states.filter fun t => t.split = s.split := by simp [hfirst]
    have hfilter := List.mem_filter.mp hin
    exact honly first hfilter.1 (by simpa using hfilter.2)
  have horder : (splitFirst s.split).order states =
      s :: (rest ++ states.filter fun t => !decide (t.split = s.split)) := by
    rw [← heq, ← List.cons_append, ← hfirst, heq]
    rfl
  have hrest : ∀ t ∈ rest ++ states.filter fun t => !decide (t.split = s.split),
      s.cut_size ≤ t.cut_size := by
    intro t ht
    apply hleast
    rw [← ((splitFirst s.split).perm states).mem_iff, horder]
    exact List.mem_cons_of_mem s ht
  unfold chooseBestState
  rw [horder, List.foldl_cons, if_pos hlt]
  exact foldl_best_eq hrest

end Best

section Rounds

variable {cutSize : List UInt64 → Option ℕ}

theorem CutSearch.test_spec {search : CutSearch} (hnodup : search.openStates.Nodup)
    {test_split : List UInt64} (hknown : (cutSize test_split).isSome) :
    ∃ search', search.test cutSize test_split = some search' ∧ search'.openStates.Nodup ∧
      (∀ s, s ∈ search'.openStates ↔ s ∈ search.openStates ∨
        cutSize s.split = some s.cut_size ∧ s.split = test_split ∧ s.split ∉ search.visited) ∧
      ∀ q, q ∈ search'.visited ↔ q ∈ search.visited ∨ q = test_split := by
  obtain ⟨c, hc⟩ := Option.isSome_iff_exists.mp hknown
  unfold test
  by_cases hvisited : test_split ∈ search.visited
  · refine ⟨search, if_pos hvisited, hnodup, fun s => ⟨Or.inl, ?_⟩, fun q => ⟨Or.inl, ?_⟩⟩
    · rintro (hs | ⟨-, rfl, hnot⟩)
      · exact hs
      · exact absurd hvisited hnot
    · rintro (hq | rfl)
      · exact hq
      · exact hvisited
  · rw [if_neg hvisited, hc]
    refine ⟨_, rfl, ?_, ?_, ?_⟩
    · dsimp only
      split_ifs with hmem
      · exact hnodup
      · exact hnodup.append (List.nodup_singleton _) (List.disjoint_singleton.mpr hmem)
    · intro s
      have hnew : cutSize s.split = some s.cut_size ∧ s.split = test_split ∧
          s.split ∉ search.visited ↔ s = ⟨c, test_split⟩ := by
        constructor
        · rintro ⟨hcut, hsplit, -⟩
          rw [hsplit, hc, Option.some.injEq] at hcut
          rw [hcut, ← hsplit]
        · rintro rfl
          exact ⟨hc, rfl, hvisited⟩
      rw [hnew]
      dsimp only
      split_ifs with hmem
      · exact ⟨Or.inl, fun h => h.elim id fun heq => heq ▸ hmem⟩
      · simp
    · intro q
      simp [or_comm]

theorem CutSearch.foldlM_test_spec {splits : List (List UInt64)} (search : CutSearch)
    (hnodup : search.openStates.Nodup) (hknown : ∀ q ∈ splits, (cutSize q).isSome) :
    ∃ search', splits.foldlM (CutSearch.test cutSize) search = some search' ∧
      search'.openStates.Nodup ∧
      (∀ s, s ∈ search'.openStates ↔ s ∈ search.openStates ∨
        cutSize s.split = some s.cut_size ∧ s.split ∈ splits ∧ s.split ∉ search.visited) ∧
      ∀ q, q ∈ search'.visited ↔ q ∈ search.visited ∨ q ∈ splits := by
  induction splits generalizing search with
  | nil => exact ⟨search, rfl, hnodup, by simp, by simp⟩
  | cons q splits ih =>
    obtain ⟨next, hnext, hnodup', hopen, hvisited⟩ := search.test_spec hnodup (hknown q (by simp))
    obtain ⟨search', hrest, hnodup'', hopen', hvisited'⟩ :=
      ih next hnodup' fun q' hq' => hknown q' (by simp [hq'])
    refine ⟨search', ?_, hnodup'', ?_, ?_⟩
    · rw [List.foldlM_cons, hnext]
      exact hrest
    · intro s
      rw [hopen', hopen, hvisited, List.mem_cons]
      tauto
    · intro q'
      rw [hvisited', hvisited, List.mem_cons]
      tauto

theorem CutSearch.known_of_foldlM_test {splits : List (List UInt64)} {search search' : CutSearch}
    (h : splits.foldlM (CutSearch.test cutSize) search = some search')
    (hvisited : ∀ q ∈ search.visited, (cutSize q).isSome) :
    ∀ q ∈ splits, (cutSize q).isSome := by
  induction splits generalizing search with
  | nil => simp
  | cons q splits ih =>
    rw [List.foldlM_cons] at h
    obtain ⟨next, hnext, hrest⟩ := Option.bind_eq_some_iff.mp h
    have hq : (cutSize q).isSome ∧ ∀ q' ∈ next.visited, (cutSize q').isSome := by
      unfold test at hnext
      split_ifs at hnext with hmem
      · rw [← Option.some.inj hnext]
        exact ⟨hvisited q hmem, hvisited⟩
      · obtain ⟨c, hc, hsome⟩ := Option.bind_eq_some_iff.mp hnext
        rw [← Option.some.inj hsome]
        have hknown : (cutSize q).isSome := by simp [hc]
        exact ⟨hknown, List.forall_mem_cons.mpr ⟨hknown, hvisited⟩⟩
    exact List.forall_mem_cons.mpr ⟨hq.1, ih hrest hq.2⟩

variable (cutSize) in
/-- The open states are those of the splits that were reached and not taken. -/
structure Searched (taken : List (List UInt64)) (search : CutSearch) : Prop where
  nodup : search.openStates.Nodup
  known : ∀ q, Reached testSplits taken q → (cutSize q).isSome
  mem_open : ∀ s, s ∈ search.openStates ↔ cutSize s.split = some s.cut_size ∧
    Reached testSplits taken s.split ∧ s.split ∉ taken.dropLast
  mem_visited : ∀ q, q ∈ search.visited ↔ Reached testSplits taken q

theorem length_of_mem_testSplits {split q : List UInt64} (h : q ∈ testSplits split) :
    q.length = split.length := by
  obtain ⟨idx, -, hq⟩ := List.mem_flatMap.mp h
  simp only [List.mem_cons, List.not_mem_nil, or_false] at hq
  rcases hq with rfl | rfl <;> exact List.length_modify ..

theorem ne_of_mem_testSplits {split q : List UInt64} (h : q ∈ testSplits split) : q ≠ split := by
  obtain ⟨idx, hidx, hq⟩ := List.mem_flatMap.mp h
  have hlt : idx < split.length := by
    have hrange := List.mem_range.mp hidx
    omega
  intro heq
  have hget : q[idx]? = some split[idx] := by rw [heq, List.getElem?_eq_getElem hlt]
  simp only [List.mem_cons, List.not_mem_nil, or_false] at hq
  rcases hq with rfl | rfl
  · have hnext := congrArg (Option.map (· + 1)) hget
    simp [hlt] at hnext
  · simp [hlt] at hget

theorem mem_testSplits_symm {split q : List UInt64} (h : q ∈ testSplits split) :
    split ∈ testSplits q := by
  have hlength := length_of_mem_testSplits h
  obtain ⟨idx, hidx, hq⟩ := List.mem_flatMap.mp h
  refine List.mem_flatMap.mpr ⟨idx, by rwa [hlength], ?_⟩
  have hback (f f' : UInt64 → UInt64) (hf : ∀ x, f' (f x) = x) :
      (split.modify idx f).modify idx f' = split := by
    apply List.ext_getElem
    · simp
    · intro i hi hi'
      by_cases hi_idx : idx = i
      · simp [hi_idx, hf]
      · simp [hi_idx]
  simp only [List.mem_cons, List.not_mem_nil, or_false] at hq ⊢
  rcases hq with rfl | rfl
  · exact Or.inr (hback _ _ fun x => by simp).symm
  · exact Or.inl (hback _ _ fun x => by simp).symm

/-- The first round takes the start, which may be reached again. -/
theorem searched_start (order : MapOrder CutSearchState) {split : List UInt64} {cut_size : ℕ}
    (hlt : cut_size < SIZE_MAX) (hne : split ≠ [])
    (hknown : ∀ q ∈ testSplits split, (cutSize q).isSome) :
    ∃ search, CutSearch.expand cutSize order ⟨[⟨cut_size, split⟩], []⟩ = some search ∧
      Searched cutSize [split] search := by
  have hbest : chooseBestState order [⟨cut_size, split⟩] = ⟨cut_size, split⟩ :=
    List.mem_singleton.mp (chooseBestState_mem_of_lt order (List.mem_singleton_self _) hlt).1
  obtain ⟨search, hsearch, hnodup, hopen, hvisited⟩ := CutSearch.foldlM_test_spec
    ⟨[⟨cut_size, split⟩], []⟩ (List.nodup_singleton _) hknown
  refine ⟨{ search with openStates := search.openStates.erase ⟨cut_size, split⟩ }, ?_, ?_⟩
  · unfold CutSearch.expand
    dsimp only
    rw [hbest, hsearch]
    simp [hne, guard]
  · constructor
    case nodup => exact hnodup.erase _
    case known =>
      intro q hq
      exact hknown q (by simpa [Reached] using hq)
    case mem_open =>
      intro s
      dsimp only
      rw [hnodup.mem_erase_iff, hopen]
      simp only [List.mem_singleton, List.not_mem_nil, not_false_eq_true, and_true, Reached,
        List.dropLast_singleton, exists_eq_left]
      constructor
      · rintro ⟨hnot, heq | hs⟩
        · exact absurd heq hnot
        · exact hs
      · intro hs
        refine ⟨?_, Or.inr hs⟩
        rintro rfl
        exact ne_of_mem_testSplits hs.2 rfl
    case mem_visited =>
      intro q
      simpa [Reached] using hvisited q

theorem Searched.expand {taken : List (List UInt64)} {search : CutSearch}
    (h : Searched cutSize taken search) (hne : taken ≠ [])
    (htaken : ∀ q ∈ taken.dropLast, Reached testSplits taken q) {order : MapOrder CutSearchState}
    {state : CutSearchState} (hstate : chooseBestState order search.openStates = state)
    (hmem : state ∈ search.openStates) (hsplit : state.split ≠ [])
    (hknown : ∀ q ∈ testSplits state.split, (cutSize q).isSome) :
    ∃ search', search.expand cutSize order = some search' ∧
      Searched cutSize (state.split :: taken) search' := by
  obtain ⟨search', hsearch, hnodup, hopen, hvisited⟩ :=
    search.foldlM_test_spec h.nodup hknown
  have hcut := ((h.mem_open state).mp hmem).1
  refine ⟨{ search' with openStates := search'.openStates.erase state }, ?_, ?_⟩
  · unfold CutSearch.expand
    dsimp only
    rw [hstate, hsearch]
    simp [hsplit, guard]
  · constructor
    case nodup => exact hnodup.erase _
    case known =>
      intro q hq
      cases reached_cons_iff.mp hq with
      | inl hmoves => exact hknown q hmoves
      | inr hreached => exact h.known q hreached
    case mem_open =>
      intro s
      have hsame (hs : cutSize s.split = some s.cut_size) : s ≠ state ↔ s.split ≠ state.split := by
        refine not_congr ⟨congrArg _, fun heq => ?_⟩
        rw [heq, hcut, Option.some.injEq] at hs
        cases s
        cases state
        simp only at hs heq
        rw [hs, heq]
      dsimp only
      rw [hnodup.mem_erase_iff, hopen, h.mem_open, h.mem_visited,
        List.dropLast_cons_of_ne_nil hne, List.mem_cons, not_or, reached_cons_iff]
      constructor
      · rintro ⟨hnot, ⟨hs, hreached, hdrop⟩ | ⟨hs, hmoves, hvisited⟩⟩
        · exact ⟨hs, Or.inr hreached, (hsame hs).mp hnot, hdrop⟩
        · exact ⟨hs, Or.inl hmoves, (hsame hs).mp hnot, mt (htaken _) hvisited⟩
      · rintro ⟨hs, hreached, hnot, hdrop⟩
        refine ⟨(hsame hs).mpr hnot, ?_⟩
        by_cases hvisited : Reached testSplits taken s.split
        · exact Or.inl ⟨hs, hvisited, hdrop⟩
        · exact Or.inr ⟨hs, hreached.resolve_right hvisited, hvisited⟩
    case mem_visited =>
      intro q
      dsimp only
      rw [hvisited, h.mem_visited, reached_cons_iff, or_comm]

theorem CutSearch.of_expand {order : MapOrder CutSearchState} {search search' : CutSearch}
    (h : search.expand cutSize order = some search')
    (hvisited : ∀ q ∈ search.visited, (cutSize q).isSome) :
    chooseBestState order search.openStates ∈ search.openStates ∧
      (chooseBestState order search.openStates).cut_size < SIZE_MAX ∧
      (chooseBestState order search.openStates).split ≠ [] ∧
      ∀ q ∈ testSplits (chooseBestState order search.openStates).split, (cutSize q).isSome := by
  unfold expand at h
  obtain ⟨hne, hrest⟩ := of_guard_bind h
  obtain ⟨next, hnext, -⟩ := Option.bind_eq_some_iff.mp hrest
  cases chooseBestState_mem order search.openStates with
  | inl heq => exact absurd (congrArg CutSearchState.split heq) hne
  | inr hmem => exact ⟨hmem.1, hmem.2, hne, known_of_foldlM_test hnext hvisited⟩

theorem Searched.mem_of_candidate {taken : List (List UInt64)} {search : CutSearch}
    (h : Searched cutSize taken search) {q : List UInt64} {c : ℕ}
    (hq : Candidate testSplits cutSize SIZE_MAX taken q c) : ⟨c, q⟩ ∈ search.openStates :=
  (h.mem_open _).mpr ⟨hq.cost_eq, hq.reached, hq.not_taken⟩

theorem Searched.candidate {taken : List (List UInt64)} {search : CutSearch}
    (h : Searched cutSize taken search) {s : CutSearchState} (hs : s ∈ search.openStates)
    (hlt : s.cut_size < SIZE_MAX) :
    Candidate testSplits cutSize SIZE_MAX taken s.split s.cut_size := by
  obtain ⟨hcut, hreached, hnot⟩ := (h.mem_open s).mp hs
  exact ⟨hreached, hnot, hcut, hlt⟩

theorem Searched.next {taken : List (List UInt64)} {start : List UInt64} {search : CutSearch}
    (h : Searched cutSize taken search)
    (htaken : BestFirst testSplits cutSize SIZE_MAX start taken) {order : MapOrder CutSearchState}
    {state : CutSearchState} (hstate : chooseBestState order search.openStates = state)
    (hmem : state ∈ search.openStates) (hlt : state.cut_size < SIZE_MAX) :
    BestFirst testSplits cutSize SIZE_MAX start (state.split :: taken) := by
  apply htaken.next (h.candidate hmem hlt)
  intro r d hr
  rw [← hstate]
  exact chooseBestState_le order (h.mem_of_candidate hr)

theorem length_of_bestFirst {taken : List (List UInt64)} {start : List UInt64}
    (h : BestFirst testSplits cutSize SIZE_MAX start taken) :
    ∀ q ∈ taken, q.length = start.length := by
  induction h with
  | start => simp
  | next _ hq _ ih =>
    obtain ⟨p, hp, hmoves⟩ := hq.reached
    exact List.forall_mem_cons.mpr ⟨(length_of_mem_testSplits hmoves).trans (ih p hp), ih⟩

end Rounds

section Search

variable (cutSize : List UInt64 → Option ℕ)

/-- The search returns a split with as many blocks whose cut is no larger. -/
structure KeepsCut (order : ℕ → MapOrder CutSearchState) (start : List UInt64) : Prop where
  found : ∃ state cut_size c, searchCuts cutSize order start = some state ∧
    state.split.length = start.length ∧ cutSize start = some cut_size ∧
    cutSize state.split = some c ∧ c ≤ cut_size

/-- As many splits as there are rounds can be taken in best-first order. Those around them have cut
sizes, and in the end one is left whose cut is no larger than that of the start. -/
structure LeavesSmallCut (start : List UInt64) (cut_size : ℕ) : Prop where
  cut_size_lt : cut_size < SIZE_MAX
  known : ∀ taken, BestFirst testSplits cutSize SIZE_MAX start taken →
    taken.length ≤ MAX_SEARCH_ITER → ∀ q, Reached testSplits taken q → (cutSize q).isSome
  goes_on : ∀ taken, BestFirst testSplits cutSize SIZE_MAX start taken →
    taken.length < MAX_SEARCH_ITER → ∃ r c, Candidate testSplits cutSize SIZE_MAX taken r c
  left : ∀ taken, BestFirst testSplits cutSize SIZE_MAX start taken →
    taken.length = MAX_SEARCH_ITER →
      ∃ r c, Candidate testSplits cutSize SIZE_MAX taken r c ∧ c ≤ cut_size

variable {cutSize} {start : List UInt64} {cut_size : ℕ}

theorem LeavesSmallCut.ne_nil (h : LeavesSmallCut cutSize start cut_size) : start ≠ [] := by
  obtain ⟨r, c, hrc⟩ := h.goes_on [start] BestFirst.start (by simp [MAX_SEARCH_ITER])
  obtain ⟨p, hp, hr⟩ := hrc.reached
  rw [List.mem_singleton] at hp
  intro hnil
  rw [hp, hnil] at hr
  simp [testSplits] at hr

/-- The loop makes all its rounds. -/
theorem LeavesSmallCut.loop (h : LeavesSmallCut cutSize start cut_size)
    (order : ℕ → MapOrder CutSearchState) (n iter_idx : ℕ) {taken : List (List UInt64)}
    {search : CutSearch} (htaken : BestFirst testSplits cutSize SIZE_MAX start taken)
    (hsearch : Searched cutSize taken search) (hn : taken.length + n = MAX_SEARCH_ITER) :
    ∃ taken' search', CutSearch.loop cutSize order n iter_idx search = some search' ∧
      BestFirst testSplits cutSize SIZE_MAX start taken' ∧ Searched cutSize taken' search' ∧
      taken'.length = MAX_SEARCH_ITER := by
  induction n generalizing iter_idx taken search with
  | zero => exact ⟨taken, search, rfl, htaken, hsearch, hn⟩
  | succ n ih =>
    obtain ⟨r, c, hrc⟩ := h.goes_on taken htaken (by omega)
    have hopen := hsearch.mem_of_candidate hrc
    obtain ⟨hmem, hlt⟩ := chooseBestState_mem_of_lt (order iter_idx) hopen hrc.below
    have hnext := hsearch.next htaken rfl hmem hlt
    have hlength := length_of_bestFirst hnext
      (chooseBestState (order iter_idx) search.openStates).split (by simp)
    have hsplit : (chooseBestState (order iter_idx) search.openStates).split ≠ [] := by
      intro hnil
      rw [hnil, List.length_nil] at hlength
      exact h.ne_nil (List.eq_nil_of_length_eq_zero hlength.symm)
    have hknown : ∀ q ∈ testSplits (chooseBestState (order iter_idx) search.openStates).split,
        (cutSize q).isSome := fun q hq => h.known _ hnext (by
      rw [List.length_cons]
      omega) q ⟨_, by simp, hq⟩
    obtain ⟨search', hexpand, hsearch'⟩ := hsearch.expand htaken.ne_nil
      htaken.reached_of_mem_dropLast rfl hmem hsplit hknown
    obtain ⟨taken', final, hloop, hrest⟩ := ih (iter_idx + 1) hnext hsearch' (by
      rw [List.length_cons]
      omega)
    refine ⟨taken', final, ?_, hrest⟩
    rw [CutSearch.loop, if_neg (List.ne_nil_of_mem hopen), hexpand]
    exact hloop

theorem LeavesSmallCut.keepsCut (h : LeavesSmallCut cutSize start cut_size)
    (hcut : cutSize start = some cut_size) (order : ℕ → MapOrder CutSearchState) :
    KeepsCut cutSize order start := by
  have hknown : ∀ q ∈ testSplits start, (cutSize q).isSome := fun q hq =>
    h.known [start] BestFirst.start (by simp [MAX_SEARCH_ITER]) q ⟨start, by simp, hq⟩
  obtain ⟨search, hfirst, hsearch⟩ :=
    searched_start (order 0) h.cut_size_lt h.ne_nil hknown
  obtain ⟨taken, final, hloop, htaken, hfinal, hlength⟩ :=
    h.loop order 9 1 BestFirst.start hsearch rfl
  obtain ⟨r, c, hrc, hle⟩ := h.left taken htaken hlength
  have hopen := hfinal.mem_of_candidate hrc
  obtain ⟨hmem, hlt⟩ :=
    chooseBestState_mem_of_lt (order MAX_SEARCH_ITER) hopen hrc.below
  have hbest := (hfinal.mem_open _).mp hmem
  refine ⟨_, cut_size, _, ?_, ?_, hcut, hbest.1, (chooseBestState_le _ hopen).trans hle⟩
  · have hrun : CutSearch.loop cutSize order MAX_SEARCH_ITER 0 ⟨[⟨cut_size, start⟩], []⟩ =
        some final := by
      rw [← hloop]
      unfold MAX_SEARCH_ITER
      rw [CutSearch.loop, if_neg (List.cons_ne_nil _ _), hfirst]
      rfl
    simp [searchCuts, hcut, hrun]
  · exact length_of_bestFirst (hfinal.next htaken rfl hmem hlt) _ (by simp)

/-- An order of the states for each round by which the search takes the splits of a list. -/
def takingOrder (target : List (List UInt64)) (iter_idx : ℕ) : MapOrder CutSearchState :=
  splitFirst (target.reverse.getD iter_idx [])

/-- The search can take splits in any best-first order. -/
theorem searched_of_loop {target taken : List (List UInt64)} {final : CutSearch}
    (hfinal : CutSearch.loop cutSize (takingOrder target) MAX_SEARCH_ITER 0
      ⟨[⟨cut_size, start⟩], []⟩ = some final)
    (htaken : BestFirst testSplits cutSize SIZE_MAX start taken) (hsuffix : taken <:+ target)
    (hlength : taken.length ≤ MAX_SEARCH_ITER) :
    ∃ search, Searched cutSize taken search ∧
      CutSearch.loop cutSize (takingOrder target) (MAX_SEARCH_ITER - taken.length) taken.length
        search = some final := by
  induction htaken with
  | start =>
    unfold MAX_SEARCH_ITER at hfinal
    rw [CutSearch.loop, if_neg (List.cons_ne_nil _ _)] at hfinal
    obtain ⟨search, hsearch, hloop⟩ := Option.bind_eq_some_iff.mp hfinal
    obtain ⟨hmem, hlt, hne, hknown⟩ := CutSearch.of_expand hsearch (by simp)
    rw [List.mem_singleton.mp hmem] at hlt hne hknown
    obtain ⟨search', hsearch', hsearched⟩ := searched_start _ hlt hne hknown
    rw [hsearch, Option.some.injEq] at hsearch'
    exact ⟨search, hsearch' ▸ hsearched, hloop⟩
  | @next taken q c htaken hq hleast ih =>
    rw [List.length_cons] at hlength
    obtain ⟨search, hsearched, hloop⟩ := ih ((List.suffix_cons q taken).trans hsuffix) (by omega)
    obtain ⟨rounds, hrounds⟩ : ∃ n, MAX_SEARCH_ITER - taken.length = n + 1 :=
      ⟨MAX_SEARCH_ITER - taken.length - 1, by omega⟩
    have hopen := hsearched.mem_of_candidate hq
    have horder : takingOrder target taken.length = splitFirst q := by
      obtain ⟨front, rfl⟩ := hsuffix
      simp [takingOrder]
    have hbest : chooseBestState (takingOrder target taken.length) search.openStates = ⟨c, q⟩ := by
      rw [horder]
      apply chooseBestState_splitFirst hopen hq.below
      · intro t ht
        by_contra hlt
        have hcandidate := hsearched.candidate ht ((not_le.mp hlt).trans hq.below)
        exact hlt (hleast _ _ hcandidate)
      · intro t ht hsplit
        have hcut := ((hsearched.mem_open t).mp ht).1
        rw [hsplit, hq.cost_eq, Option.some.injEq] at hcut
        cases t
        simp only at hcut hsplit
        rw [hcut, hsplit]
    rw [hrounds, CutSearch.loop, if_neg (List.ne_nil_of_mem hopen)] at hloop
    obtain ⟨next, hnext, hrest⟩ := Option.bind_eq_some_iff.mp hloop
    obtain ⟨-, -, hne, hknown⟩ := CutSearch.of_expand hnext fun r hr =>
      hsearched.known r ((hsearched.mem_visited r).mp hr)
    rw [hbest] at hne hknown
    obtain ⟨next', hnext', hsearched'⟩ := hsearched.expand htaken.ne_nil
      htaken.reached_of_mem_dropLast hbest hopen hne hknown
    rw [hnext, Option.some.injEq] at hnext'
    have hrounds' : MAX_SEARCH_ITER - (q :: taken).length = rounds := by
      rw [List.length_cons]
      omega
    refine ⟨next, hnext' ▸ hsearched', ?_⟩
    rw [hrounds']
    exact hrest

theorem KeepsCut.exists_loop {order : ℕ → MapOrder CutSearchState}
    (h : KeepsCut cutSize order start) (hcut : cutSize start = some cut_size) :
    ∃ final, CutSearch.loop cutSize order MAX_SEARCH_ITER 0 ⟨[⟨cut_size, start⟩], []⟩ =
        some final ∧
      (chooseBestState (order MAX_SEARCH_ITER) final.openStates).split.length = start.length ∧
      ∃ c, cutSize (chooseBestState (order MAX_SEARCH_ITER) final.openStates).split = some c ∧
        c ≤ cut_size := by
  obtain ⟨state, cut_size', c, hrun, hlength, hcut', hc, hle⟩ := h.found
  rw [hcut, Option.some.injEq] at hcut'
  rw [searchCuts, hcut] at hrun
  rw [Option.bind_eq_bind, Option.bind_some] at hrun
  obtain ⟨final, hloop, hstate⟩ := Option.bind_eq_some_iff.mp hrun
  rw [Option.some.injEq] at hstate
  exact ⟨final, hloop, hstate ▸ hlength, c, hstate ▸ hc, hcut' ▸ hle⟩

theorem leavesSmallCut_of_keepsCut (h : ∀ order, KeepsCut cutSize order start)
    (hcut : cutSize start = some cut_size) : LeavesSmallCut cutSize start cut_size := by
  have hrun (taken : List (List UInt64))
      (htaken : BestFirst testSplits cutSize SIZE_MAX start taken)
      (hlength : taken.length ≤ MAX_SEARCH_ITER) : ∃ search final, Searched cutSize taken search ∧
      CutSearch.loop cutSize (takingOrder taken) (MAX_SEARCH_ITER - taken.length) taken.length
        search = some final ∧
      (chooseBestState (takingOrder taken MAX_SEARCH_ITER) final.openStates).split.length =
        start.length ∧
      ∃ c, cutSize (chooseBestState (takingOrder taken MAX_SEARCH_ITER) final.openStates).split =
        some c ∧ c ≤ cut_size := by
    obtain ⟨final, hfinal, hrest⟩ := (h (takingOrder taken)).exists_loop hcut
    obtain ⟨search, hsearched, hloop⟩ :=
      searched_of_loop hfinal htaken (List.suffix_refl taken) hlength
    exact ⟨search, final, hsearched, hloop, hrest⟩
  -- the first round takes the start itself
  obtain ⟨final, hfinal, -⟩ := (h (takingOrder [])).exists_loop hcut
  unfold MAX_SEARCH_ITER at hfinal
  rw [CutSearch.loop, if_neg (List.cons_ne_nil _ _)] at hfinal
  obtain ⟨first, hfirst, -⟩ := Option.bind_eq_some_iff.mp hfinal
  obtain ⟨hmem, hlt, hne, -⟩ := CutSearch.of_expand hfirst (by simp)
  rw [List.mem_singleton.mp hmem] at hlt hne
  have hpos : start.length ≠ 0 := fun hzero => hne (List.eq_nil_of_length_eq_zero hzero)
  have hbest {taken : List (List UInt64)} {search : CutSearch}
      (hsearched : Searched cutSize taken search) {order : MapOrder CutSearchState}
      (hlength : (chooseBestState order search.openStates).split.length = start.length) :
      Candidate testSplits cutSize SIZE_MAX taken (chooseBestState order search.openStates).split
        (chooseBestState order search.openStates).cut_size := by
    cases chooseBestState_mem order search.openStates with
    | inl heq =>
      rw [heq] at hlength
      exact absurd hlength.symm hpos
    | inr hmem => exact hsearched.candidate hmem.1 hmem.2
  constructor
  case cut_size_lt => exact hlt
  case known =>
    intro taken htaken hlength
    obtain ⟨search, final, hsearched, -⟩ := hrun taken htaken hlength
    exact hsearched.known
  case goes_on =>
    intro taken htaken hlength
    obtain ⟨search, final, hsearched, hloop, hfound, -⟩ := hrun taken htaken hlength.le
    obtain ⟨rounds, hrounds⟩ : ∃ n, MAX_SEARCH_ITER - taken.length = n + 1 :=
      ⟨MAX_SEARCH_ITER - taken.length - 1, by omega⟩
    rw [hrounds, CutSearch.loop] at hloop
    by_cases hopen : search.openStates = []
    · rw [if_pos hopen, Option.some.injEq] at hloop
      rw [← hloop] at hfound
      exact ⟨_, _, hbest hsearched hfound⟩
    · rw [if_neg hopen] at hloop
      obtain ⟨next, hnext, -⟩ := Option.bind_eq_some_iff.mp hloop
      obtain ⟨hmem, hbelow, -⟩ := CutSearch.of_expand hnext fun r hr =>
        hsearched.known r ((hsearched.mem_visited r).mp hr)
      exact ⟨_, _, hsearched.candidate hmem hbelow⟩
  case left =>
    intro taken htaken hlength
    obtain ⟨search, final, hsearched, hloop, hfound, c, hc, hle⟩ := hrun taken htaken hlength.le
    rw [hlength, Nat.sub_self, CutSearch.loop, Option.some.injEq] at hloop
    rw [← hloop] at hfound hc
    have hcandidate := hbest hsearched hfound
    rw [hcandidate.cost_eq, Option.some.injEq] at hc
    exact ⟨_, _, hcandidate, hc ▸ hle⟩

end Search

/-- The search returns a split with as many blocks that cuts the graph no worse. -/
def SearchKeepsCut (sort : TopologicalSort) (set_order : SetOrder)
    (order : ℕ → MapOrder CutSearchState) (split : List UInt64) (g : BGraph) : Prop :=
  ∃ state cut_size c, doSearchCuts sort set_order order split g = some state ∧
    state.split.length = split.length ∧ splitCutSize sort set_order g split = some cut_size ∧
    splitCutSize sort set_order g state.split = some c ∧ c ≤ cut_size

/-- However the sets are traversed, the search makes nothing worse if and only if best-first order
leaves a cut that is no larger. -/
theorem searchKeepsCut_iff (sort : TopologicalSort) (set_order : SetOrder) (g : BGraph)
    (split : List UInt64) :
    (∀ order, SearchKeepsCut sort set_order order split g) ↔
      ∃ cut_size, splitCutSize sort set_order g split = some cut_size ∧
        LeavesSmallCut (splitCutSize sort set_order g) split cut_size := by
  constructor
  · intro h
    obtain ⟨state, cut_size, c, -, -, hcut, -⟩ := h fun _ => splitFirst split
    exact ⟨cut_size, hcut, leavesSmallCut_of_keepsCut (fun order => ⟨h order⟩) hcut⟩
  · rintro ⟨cut_size, hcut, h⟩ order
    exact (h.keepsCut hcut order).found

/-- The search does not forget ten connected splits around the start whose cuts are no larger. -/
theorem LeavesSmallCut.of_region {cutSize : List UInt64 → Option ℕ} {start : List UInt64}
    {cut_size : ℕ} (hlt : cut_size < SIZE_MAX)
    (hknown : ∀ q : List UInt64, q.length = start.length → (cutSize q).isSome)
    {region : Finset (List UInt64)} (hstart : start ∈ region)
    (hcut : ∀ q ∈ region, ∃ c, cutSize q = some c ∧ c ≤ cut_size)
    (hconnected : ∀ q ∈ region,
      Relation.ReflTransGen (fun a b => b ∈ testSplits a ∧ b ∈ region) start q)
    (hcard : MAX_SEARCH_ITER ≤ region.card) : LeavesSmallCut cutSize start cut_size := by
  have hsmall (taken : List (List UInt64))
      (htaken : BestFirst testSplits cutSize SIZE_MAX start taken)
      (hlength : taken.length ≤ MAX_SEARCH_ITER) :
      ∃ r c, Candidate testSplits cutSize SIZE_MAX taken r c ∧ c ≤ cut_size := by
    have htwo : 2 ≤ MAX_SEARCH_ITER := by simp [MAX_SEARCH_ITER]
    apply htaken.exists_candidate_of_region (fun a b => mem_testSplits_symm) hstart
    · intro q hq
      obtain ⟨c, hc, hle⟩ := hcut q hq
      exact ⟨c, hc, hle, hle.trans_lt hlt⟩
    · exact hconnected
    · exact hlength.trans hcard
    · exact htwo.trans hcard
  constructor
  case cut_size_lt => exact hlt
  case known =>
    rintro taken htaken - q ⟨p, hp, hq⟩
    exact hknown q ((length_of_mem_testSplits hq).trans (length_of_bestFirst htaken p hp))
  case goes_on =>
    intro taken htaken hlength
    obtain ⟨r, c, hrc, -⟩ := hsmall taken htaken hlength.le
    exact ⟨r, c, hrc⟩
  case left => exact fun taken htaken hlength => hsmall taken htaken hlength.le

def inOrder : MapOrder CutSearchState := ⟨id, fun l => List.Perm.refl l⟩

/-- An operator between the input and the output of a graph. -/
def oneOperator : BGraph where
  id := "g"
  vertices :=
    [{ VertexInfo.ofValue (tensorValue true "x").2 with is_input := true, is_orig_input := true },
      VertexInfo.ofNode ⟨"op", ["x"], ["y"], "n0", false, true⟩,
      { VertexInfo.ofValue (tensorValue true "y").2 with
        is_output := true
        is_orig_output := true }]
  edges := [(0, 1), (1, 2)]

/-- There is nothing to move, and the start is forgotten. -/
theorem not_searchKeepsCut :
    ¬ SearchKeepsCut .sinksFirst .sorted (fun _ => inOrder) [3] oneOperator := by
  rintro ⟨state, cut_size, c, hrun, hlength, -⟩
  have hsentinel : doSearchCuts .sinksFirst .sorted (fun _ => inOrder) [3] oneOperator =
      some ⟨SIZE_MAX, []⟩ := rfl
  rw [hsentinel, Option.some.injEq] at hrun
  rw [← hrun] at hlength
  exact absurd hlength (by decide)

end Rannc
