import Rannc.Opt.GatheredState
import Rannc.Opt.TorchOptimizer
import Rannc.Comm.Redist
import Rannc.Comp.ParamSegments

/-!
# State with ZeRO

Each rank has the state of its own segment of a parameter. Gathering takes one of the segments, and
slicing what was gathered fails.
-/
namespace Rannc

/-- A tensor of a parameter, or another value such as the number of steps. -/
inductive StateValue (α B : Type)
  | tensor (t : List α)
  | other (b : B)
  deriving DecidableEq, Repr

namespace StateValue

variable {α B : Type}

def getTensor : StateValue α B → Option (List α)
  | tensor t => some t
  | other _ => none

end StateValue

/-- What an optimizer keeps for a parameter. -/
abbrev ParamState (α B : Type) := Dict String (StateValue α B)

/-- Offset and end of a segment. -/
def getSegmentRange (numel : ℕ) (ranks : Finset ℕ) (index : ℕ) : ℕ × ℕ :=
  let (offset, src_size) := (doRegister numel ranks).getD index (0, 0)
  (offset, offset + src_size)

section Slice

variable {α B O : Type} (item : List α → ℕ × ℕ → Option (List α))

def sliceStateValue (param_zero_range : Dict ℕ (ℕ × ℕ)) (pid : ℕ) :
    StateValue α B → Option (StateValue α B)
  | .tensor state_v => do
    let slice ← param_zero_range.get pid
    return .tensor (← item state_v slice)
  | .other b => some (.other b)

/-- The sliced state has no entry `state` to which values could be added. -/
def addSliced (param_zero_range : Dict ℕ (ℕ × ℕ)) (sliced : Option (Dict ℕ (ParamState α B)))
    (it : ℕ × ParamState α B) : Option (Option (Dict ℕ (ParamState α B))) := do
  let new_state_vals ← it.2.entries.mapM fun e => do
    return (e.1, ← sliceStateValue item param_zero_range it.1 e.2)
  let state ← sliced
  return some (state.set it.1 (Dict.ofList new_state_vals))

/-- The two ends of the range of a parameter are used as two indices of its tensors. -/
def sliceOptimizerState (local_state_dict : StateDict (ParamState α B) O)
    (o : ParamOrder) : Option (StateDict (ParamState α B) O) := do
  let items := (local_state_dict.state.map Dict.entries).getD []
  let state ← items.foldlM (addSliced item o.param_zero_range) none
  return ⟨state, local_state_dict.param_groups⟩

variable {item}

theorem sliceOptimizerState_state {local_state_dict sliced : StateDict (ParamState α B) O}
    {o : ParamOrder} (h : sliceOptimizerState item local_state_dict o = some sliced) :
    sliced.state = none := by
  obtain ⟨state, hfold, hend⟩ := Option.bind_eq_some_iff.mp h
  rw [← Option.some.inj hend]
  cases hitems : (local_state_dict.state.map Dict.entries).getD [] with
  | nil =>
    rw [hitems] at hfold
    exact (Option.some.inj hfold).symm
  | cons it items =>
    rw [hitems, List.foldlM_cons] at hfold
    obtain ⟨state₁, hadd, -⟩ := Option.bind_eq_some_iff.mp hfold
    obtain ⟨vals, -, hset⟩ := Option.bind_eq_some_iff.mp hadd
    exact absurd hset (Option.some_ne_none _).symm

end Slice

/-- The ranks that share a parameter. -/
def OptimizerWorld.ranksOf {P S O : Type} [DecidableEq P] (w : OptimizerWorld P S O) (p : P) :
    Finset ℕ := (Finset.range w.world_size).filter fun r => w.used r p

/-- Optimizers of ranks that have the state of their own segments only. -/
structure ZeroWorld (P α B O : Type) [DecidableEq P] extends
    OptimizerWorld P (ParamState α B) O where
  numel : P → ℕ
  enable_zero : ∀ r, (use r).enable_zero = true
  get_local_param_range : ∀ r < world_size, ∀ p, toOptimizerWorld.used r p →
    (use r).get_local_param_range p = getSegmentRange (numel p) (toOptimizerWorld.ranksOf p)
      (getLocalRank (toOptimizerWorld.ranksOf p) r)
  length_tensor : ∀ r < world_size, ∀ p state key t, (opt r).state.get p = some state →
    (state.get key).bind StateValue.getTensor = some t →
    t.length = ((use r).get_local_param_range p).2 - ((use r).get_local_param_range p).1

namespace ZeroWorld

open OptimizerWorld

variable {P α B O : Type} [DecidableEq P] (w : ZeroWorld P α B O)
  (torch : StateProtocol P (ParamState α B) O) (item : List α → ℕ × ℕ → Option (List α))

def tensorAt (r : ℕ) (p : P) (key : String) : Option (List α) :=
  ((w.opt r).state.get p).bind fun state => (state.get key).bind StateValue.getTensor

def gatheredTensor (state : Dict ℕ (ParamState α B)) (i : ℕ) (key : String) : Option (List α) :=
  (state.get i).bind fun state => (state.get key).bind StateValue.getTensor

/-- The `i`-th of all parameters has the segments of its ranks, one after the other. -/
def ConcatenatedAt (state : Dict ℕ (ParamState α B)) (i : ℕ) : Prop :=
  ∀ p key (segment : ℕ → List α), (paramsOf w.param_groups)[i]? = some p →
    (w.ranksOf p).Nonempty → (∀ r ∈ w.ranksOf p, w.tensorAt r p key = some (segment r)) →
    gatheredTensor state i key = some ((sortRanks (w.ranksOf p)).flatMap segment)

/-- What is gathered has all segments, and each rank gets its own ones from it. -/
def ZeroRoundTrip (root : ℕ) : Prop := ∃ state_dict param_ranks state,
  gatherOptimizerStateDict torch (w.ranks torch) w.world_size root =
    some (state_dict, param_ranks) ∧
  state_dict.state = some state ∧ (∀ i, w.ConcatenatedAt state i) ∧
  ∀ r < w.world_size, ∃ opt,
    newLoadStateDict torch (some (sliceOptimizerState item)) (w.ranks torch r) state_dict =
      some opt ∧
    ∀ p, opt.state.get p = (w.opt r).state.get p

variable {w} {torch} {item}

theorem newLoadStateDict_slice (r : RankOptimizer P (ParamState α B) O)
    (state_dict : StateDict (ParamState α B) O) :
    newLoadStateDict torch (some (sliceOptimizerState item)) r state_dict = none := by
  unfold newLoadStateDict
  dsimp only [Option.bind_eq_bind]
  cases hslice : sliceOptimizerState item
      (getLocalOptimizerStateDict state_dict r.order.used_param_global_order) r.order with
  | none => rfl
  | some sliced =>
    rw [Option.bind_some]
    exact torch.load_no_state _ _ (sliceOptimizerState_state hslice)

theorem exists_gatheredTensor {state_dict : StateDict (ParamState α B) O}
    {state : Dict ℕ (ParamState α B)} {root i : ℕ} {p : P} (hroot : root < w.world_size)
    (hgathered : w.toOptimizerWorld.Gathered (gatherOrder w.world_size root) state_dict)
    (hstate : state_dict.state = some state) (hp : (paramsOf w.param_groups)[i]? = some p)
    (hsome : (state.get i).isSome) :
    ∃ r ∈ w.ranksOf p, ∀ key, gatheredTensor state i key = w.tensorAt r p key := by
  obtain ⟨state', hstate', hget⟩ := hgathered.state
  obtain rfl : state = state' := Option.some.inj (hstate.symm.trans hstate')
  obtain ⟨s, hs⟩ := Option.isSome_iff_exists.mp hsome
  have hfirst := hget i
  rw [hs] at hfirst
  obtain ⟨r, hr, hat⟩ := List.exists_of_findSome?_eq_some hfirst.symm
  have hused := (mem_usedPositions.mp (used_of_stateAt hp (Option.isSome_of_eq_some hat))).2
  refine ⟨r, ?_, fun key => ?_⟩
  · exact Finset.mem_filter.mpr ⟨Finset.mem_range.mpr ((mem_gatherOrder hroot).mp hr), hused⟩
  · unfold gatheredTensor tensorAt
    unfold stateAt at hat
    rw [hp, Option.bind_some] at hat
    rw [hs, hat]

/-- Two ranks that have elements of a parameter do not both keep them. -/
theorem not_concatenatedAt {state_dict : StateDict (ParamState α B) O}
    {state : Dict ℕ (ParamState α B)} {root i : ℕ} {p : P} {key : String} {segment : ℕ → List α}
    (hroot : root < w.world_size)
    (hgathered : w.toOptimizerWorld.Gathered (gatherOrder w.world_size root) state_dict)
    (hstate : state_dict.state = some state) (hp : (paramsOf w.param_groups)[i]? = some p)
    (hsegment : ∀ r ∈ w.ranksOf p, w.tensorAt r p key = some (segment r)) {r r' : ℕ}
    (hr : r ∈ w.ranksOf p) (hr' : r' ∈ w.ranksOf p) (hne : r ≠ r') (helems : segment r ≠ [])
    (helems' : segment r' ≠ []) : ¬ w.ConcatenatedAt state i := by
  intro h
  have hall := h p key segment hp ⟨r, hr⟩ hsegment
  have hsome : (state.get i).isSome := by
    unfold gatheredTensor at hall
    obtain ⟨s, hs, -⟩ := Option.bind_eq_some_iff.mp hall
    exact Option.isSome_of_eq_some hs
  obtain ⟨r₀, hr₀, htensor⟩ := exists_gatheredTensor hroot hgathered hstate hp hsome
  rw [htensor, hsegment r₀ hr₀] at hall
  have hlength := congrArg List.length (Option.some.inj hall)
  rw [List.length_flatMap, sum_map_sortRanks] at hlength
  have hother : ∃ r₁ ∈ w.ranksOf p, r₀ ≠ r₁ ∧ 0 < (segment r₁).length := by
    by_cases heq : r₀ = r
    · exact ⟨r', hr', heq ▸ hne, List.length_pos_iff.mpr helems'⟩
    · exact ⟨r, hr, heq, List.length_pos_iff.mpr helems⟩
  obtain ⟨r₁, hr₁, hne₁, hpos⟩ := hother
  have hle := Finset.add_le_sum (f := fun r => (segment r).length)
    (fun _ _ => Nat.zero_le _) hr₀ hr₁ hne₁
  omega

/-- With ZeRO the state is never restored. -/
theorem not_zeroRoundTrip (w : ZeroWorld P α B O) (torch : StateProtocol P (ParamState α B) O)
    (item : List α → ℕ × ℕ → Option (List α)) {root : ℕ} (hroot : root < w.world_size) :
    ¬ w.ZeroRoundTrip torch item root := by
  intro h
  obtain ⟨state_dict, param_ranks, state, -, -, -, hload⟩ := h
  obtain ⟨opt, hopt, -⟩ := hload root hroot
  rw [newLoadStateDict_slice] at hopt
  exact absurd hopt (Option.some_ne_none opt).symm

/-- Two ranks share a parameter of three elements. -/
def twoSegments : ZeroWorld ℕ ℕ ℕ ℕ where
  world_size := 2
  param_groups := [⟨[12], Dict.ofList [("lr", 1)]⟩]
  nodup := by decide
  use := fun r => ⟨fun p => p = 12, true, fun _ => if r = 0 then (0, 2) else (2, 3)⟩
  opt := fun r => {
    param_groups := [⟨[12], Dict.ofList [("lr", 1)]⟩]
    state := Dict.ofList [(12, Dict.ofList [("step", .other 5),
      ("exp_avg", .tensor (if r = 0 then [1, 2] else [3]))])] }
  params := by
    intro r
    rw [removeUnusedParams_groups]
    simp
  state := by
    intro r
    split_ifs <;> decide
  numel := fun _ => 3
  enable_zero := fun _ => rfl
  get_local_param_range := by
    intro r hr p hp
    obtain rfl : p = 12 := of_decide_eq_true hp
    interval_cases r <;> decide
  length_tensor := by
    intro r hr p state key t hstate ht
    have hentry := List.mem_singleton.mp (Dict.mem_entries_iff.mpr hstate)
    obtain ⟨-, rfl⟩ := Prod.mk.inj hentry
    obtain ⟨value, hvalue, htensor⟩ := Option.bind_eq_some_iff.mp ht
    have hmem := Dict.mem_entries_iff.mpr hvalue
    cases List.mem_cons.mp hmem with
    | inl hstep =>
      obtain ⟨-, rfl⟩ := Prod.mk.inj hstep
      exact absurd htensor (Option.some_ne_none t).symm
    | inr hrest =>
      obtain ⟨-, rfl⟩ := Prod.mk.inj (List.mem_singleton.mp hrest)
      obtain rfl := Option.some.inj htensor
      split_ifs <;> rfl

theorem not_zeroRoundTrip_root : ¬ twoSegments.ZeroRoundTrip torchOptimizer (fun _ _ => none) 1 :=
  not_zeroRoundTrip twoSegments torchOptimizer (fun _ _ => none) (by decide)

theorem not_zeroRoundTrip_twoSegments :
    ¬ twoSegments.ZeroRoundTrip torchOptimizer (fun _ _ => none) 0 := by
  intro h
  obtain ⟨state_dict, param_ranks, state, hgather, hstate, hconcatenated, -⟩ := h
  obtain ⟨gathered, hgathered, hinv⟩ :=
    exists_gathered (w := twoSegments.toOptimizerWorld) torchOptimizer 0
  have heq : gathered.1 = state_dict :=
    congrArg Prod.fst (Option.some.inj (hgathered.symm.trans hgather))
  rw [heq] at hinv
  have hp : (paramsOf twoSegments.param_groups)[0]? = some 12 := rfl
  have hsegment : ∀ r ∈ twoSegments.ranksOf 12, twoSegments.tensorAt r 12 "exp_avg" =
      some (if r = 0 then [1, 2] else [3]) := fun _ _ => rfl
  have h0 : 0 ∈ twoSegments.ranksOf 12 := by decide
  have h1 : 1 ∈ twoSegments.ranksOf 12 := by decide
  exact not_concatenatedAt (by decide) hinv hstate hp hsegment h0 h1 (by decide) (by decide)
    (by decide) (hconcatenated 0)

end ZeroWorld

end Rannc
