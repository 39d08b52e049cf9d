import Rannc.Common.BatchDims
import Rannc.Graph.DPStaging

/-!
# Cached profiles

A profile is kept under the name of its graph, the share of the batch and whether there are
checkpoints. For each graph the largest share is kept that may fit into memory. The profiler is
asked for a number of replicas only and shares out the batch size that it was made with, so the
answers are those of profiling directly just where this is the share that was asked for.
-/
namespace Rannc

/-- How the profiler ends. -/
inductive ProfileRun
  | profile (prof : GraphProfile)
  | exception (msg : String)
  deriving DecidableEq

def makeErrorProfile : GraphProfile := ⟨ERROR_VAL, ERROR_VAL, ERROR_VAL⟩

/-- Whether a text is found in a message. -/
def found (msg text : String) : Bool := decide (text.toList <:+: msg.toList)

def ProfileRun.outOfMemory : ProfileRun → Bool
  | profile _ => false
  | exception msg => found msg "CUDA out of memory" || found msg "Too many elements"

/-- What the profiler finds out about a graph for a share of the batch. Where a share does not fit
into memory, a larger one does not either. -/
structure Measurement where
  run : IRGraph → ℕ → Bool → ProfileRun
  toString : IRGraph → String
  monotone : ∀ g bs bs' checkpointing, bs ≤ bs' →
    (run g bs checkpointing).outOfMemory → (run g bs' checkpointing).outOfMemory

/-- The share of a batch by which the profiler splits its values. -/
def splitSize (total_batch_size replica_num : ℕ) : ℕ :=
  (((calcDistBatchDims total_batch_size [total_batch_size] (Finset.range replica_num) 0).lookup
    0).getD []).headD 0

structure MLProfileKey where
  id : String
  batch_size : ℕ
  checkpointing : Bool
  deriving DecidableEq

structure ProfilerUtil where
  profile_cache : MLProfileKey → Option GraphProfile
  max_batch_size_cache : Bool → String → Option ℕ

/-- The arguments of a call. -/
structure ProfileCall where
  g : IRGraph
  batch_size : ℕ
  replica_num : ℕ
  checkpointing : Bool
  batch_size_le : batch_size ≤ SIZE_MAX
  replica_num_pos : 0 < replica_num

namespace ProfileCall

/-- The share that is asked for. -/
def bs (c : ProfileCall) : ℕ := (ceilDiv c.batch_size c.replica_num).toNat

def key (c : ProfileCall) : MLProfileKey := ⟨c.g.name, c.bs, c.checkpointing⟩

end ProfileCall

namespace ProfilerUtil

def start : ProfilerUtil := ⟨fun _ => none, fun _ _ => none⟩

def addProfile (u : ProfilerUtil) (k : MLProfileKey) (prof : GraphProfile) : ProfilerUtil :=
  { u with profile_cache := Function.update u.profile_cache k (some prof) }

def setMax (u : ProfilerUtil) (checkpointing : Bool) (name : String) (bs : ℕ) : ProfilerUtil :=
  { u with
    max_batch_size_cache := Function.update u.max_batch_size_cache checkpointing
      (Function.update (u.max_batch_size_cache checkpointing) name (some bs)) }

/-- A graph without an entry gets the largest number. -/
def initMax (u : ProfilerUtil) (checkpointing : Bool) (name : String) : ProfilerUtil :=
  if (u.max_batch_size_cache checkpointing name).isSome then u
  else u.setMax checkpointing name SIZE_MAX

variable (batch_size : ℕ) (m : Measurement)

/-- The profiler has `batch_size` from its constructor. -/
def profile (u : ProfilerUtil) (c : ProfileCall) : ProfilerUtil × Except String GraphProfile :=
  match u.profile_cache c.key with
  | some prof => (u, .ok prof)
  | none =>
    let u := u.initMax c.checkpointing c.g.name
    let max_bs := (u.max_batch_size_cache c.checkpointing c.g.name).getD SIZE_MAX
    if max_bs < c.bs then (u.addProfile c.key makeErrorProfile, .ok makeErrorProfile)
    else
      match m.run c.g (splitSize batch_size c.replica_num) c.checkpointing with
      | .profile prof => (u.addProfile c.key prof, .ok prof)
      | .exception msg =>
        if (ProfileRun.exception msg).outOfMemory then
          let u := u.addProfile c.key makeErrorProfile
          let u := if max_bs ≥ c.bs then u.setMax c.checkpointing c.g.name (toSize (c.bs - 1))
            else u
          (u, .ok makeErrorProfile)
        else (u, .error ("Failed to profile graph: " ++ m.toString c.g))

/-- What profiling the graph for the share gives, the error profile standing for too little
memory. -/
def direct (c : ProfileCall) : Except String GraphProfile :=
  match m.run c.g c.bs c.checkpointing with
  | .profile prof => .ok prof
  | .exception msg =>
    if (ProfileRun.exception msg).outOfMemory then .ok makeErrorProfile
    else .error ("Failed to profile graph: " ++ m.toString c.g)

/-- The answers to some calls. -/
def profileAll : ProfilerUtil → List ProfileCall → List (Except String GraphProfile)
  | _, [] => []
  | u, c :: calls => (u.profile batch_size m c).2 :: profileAll (u.profile batch_size m c).1 calls

/-- What the caches say is true. -/
structure Valid (calls : List ProfileCall) (u : ProfilerUtil) : Prop where
  profiles : ∀ c ∈ calls, ∀ prof, u.profile_cache c.key = some prof → direct m c = .ok prof
  sizes : ∀ c ∈ calls, ∀ max_bs, u.max_batch_size_cache c.checkpointing c.g.name = some max_bs →
    max_bs < c.bs → (m.run c.g c.bs c.checkpointing).outOfMemory

variable {batch_size m} {calls : List ProfileCall} {u : ProfilerUtil} {c : ProfileCall}

theorem direct_of_outOfMemory (h : (m.run c.g c.bs c.checkpointing).outOfMemory) :
    direct m c = .ok makeErrorProfile := by
  unfold direct
  cases hrun : m.run c.g c.bs c.checkpointing with
  | profile prof =>
    rw [hrun] at h
    exact nomatch h
  | exception msg =>
    rw [hrun] at h
    exact if_pos h

theorem valid_start : Valid m calls start :=
  ⟨fun _ _ _ h => (nomatch h), fun _ _ _ h _ => (nomatch h)⟩

/-- A profile is kept that is the answer to a call. -/
theorem Valid.addProfile (h : Valid m calls u) (hnamed : ∀ c' ∈ calls, c'.g.name = c.g.name →
    c'.g = c.g) {prof : GraphProfile} (hprof : direct m c = .ok prof) :
    Valid m calls (u.addProfile c.key prof) where
  profiles c' hc' prof' hget := by
    unfold ProfilerUtil.addProfile at hget
    dsimp only at hget
    by_cases hkey : c'.key = c.key
    · rw [hkey, Function.update_self] at hget
      obtain rfl := Option.some.inj hget
      obtain ⟨hname, hbs, hcheck⟩ := (MLProfileKey.mk.injEq ..).mp hkey
      unfold direct at hprof ⊢
      rw [hnamed c' hc' hname, hbs, hcheck]
      exact hprof
    · rw [Function.update_of_ne hkey] at hget
      exact h.profiles c' hc' prof' hget
  sizes := h.sizes

/-- A bound is set that no share above fits. -/
theorem Valid.setMax (h : Valid m calls u) {checkpointing : Bool} {name : String} {bs : ℕ}
    (hbs : ∀ c ∈ calls, c.checkpointing = checkpointing → c.g.name = name → bs < c.bs →
      (m.run c.g c.bs c.checkpointing).outOfMemory) :
    Valid m calls (u.setMax checkpointing name bs) where
  profiles := h.profiles
  sizes c hc max_bs hget hlt := by
    unfold ProfilerUtil.setMax at hget
    dsimp only at hget
    by_cases hcheck : c.checkpointing = checkpointing
    · rw [hcheck, Function.update_self] at hget
      by_cases hname : c.g.name = name
      · rw [hname, Function.update_self] at hget
        obtain rfl := Option.some.inj hget
        exact hbs c hc hcheck hname hlt
      · rw [Function.update_of_ne hname, ← hcheck] at hget
        exact h.sizes c hc max_bs hget hlt
    · rw [Function.update_of_ne hcheck] at hget
      exact h.sizes c hc max_bs hget hlt

theorem bs_le (c : ProfileCall) : c.bs ≤ SIZE_MAX := by
  refine le_trans ?_ c.batch_size_le
  have hpos : (0 : ℤ) < c.replica_num := by exact_mod_cast c.replica_num_pos
  unfold ProfileCall.bs ceilDiv
  rw [Int.toNat_le]
  have hle : -(c.batch_size : ℤ) ≤ -(c.batch_size : ℤ) / c.replica_num :=
    (Int.le_ediv_iff_mul_le hpos).mpr (by nlinarith)
  omega

theorem Valid.initMax (h : Valid m calls u) (checkpointing : Bool) (name : String) :
    Valid m calls (u.initMax checkpointing name) := by
  unfold ProfilerUtil.initMax
  split_ifs
  · exact h
  · exact h.setMax fun c _ _ _ hlt => absurd (bs_le c) (not_le.mpr hlt)

theorem initMax_get (u : ProfilerUtil) (checkpointing : Bool) (name : String) :
    ∃ max_bs, (u.initMax checkpointing name).max_batch_size_cache checkpointing name =
      some max_bs := by
  unfold ProfilerUtil.initMax
  split_ifs with h
  · exact Option.isSome_iff_exists.mp h
  · exact ⟨SIZE_MAX, by simp [ProfilerUtil.setMax]⟩

/-- An answer is the direct one if the profiler splits its batch as the call asks for. -/
theorem Valid.profile (h : Valid m calls u) (hc : c ∈ calls)
    (hnamed : ∀ c' ∈ calls, c'.g.name = c.g.name → c'.g = c.g)
    (hsplit : splitSize batch_size c.replica_num = c.bs) :
    (u.profile batch_size m c).2 = direct m c ∧ Valid m calls (u.profile batch_size m c).1 := by
  unfold ProfilerUtil.profile
  cases hget : u.profile_cache c.key with
  | some prof => exact ⟨(h.profiles c hc prof hget).symm, h⟩
  | none =>
    have hinit := h.initMax c.checkpointing c.g.name
    obtain ⟨max_bs, hmax⟩ := initMax_get u c.checkpointing c.g.name
    dsimp only
    rw [hmax, Option.getD_some]
    by_cases hlt : max_bs < c.bs
    · rw [if_pos hlt]
      have herror := direct_of_outOfMemory (hinit.sizes c hc max_bs hmax hlt)
      exact ⟨herror.symm, hinit.addProfile hnamed herror⟩
    · rw [if_neg hlt, if_pos (not_lt.mp hlt), hsplit]
      cases hrun : m.run c.g c.bs c.checkpointing with
      | profile prof =>
        have hprof : direct m c = .ok prof := by rw [direct, hrun]
        exact ⟨hprof.symm, hinit.addProfile hnamed hprof⟩
      | exception msg =>
        dsimp only
        split_ifs with hmemory
        · have hout : (m.run c.g c.bs c.checkpointing).outOfMemory := by rwa [hrun]
          have herror := direct_of_outOfMemory hout
          refine ⟨herror.symm, (hinit.addProfile hnamed herror).setMax ?_⟩
          intro c' hc' hcheck hname hlarge
          -- without a share at all the bound wraps around
          have hle : c.bs ≤ c'.bs := by
            by_contra hgt
            have hsize : (toSize (c.bs - 1) : ℤ) = c.bs - 1 := by
              refine toSize_eq (by omega) ?_
              have hbs := bs_le c
              unfold SIZE_MAX at hbs
              omega
            omega
          rw [hnamed c' hc' hname, hcheck]
          exact m.monotone _ _ _ _ hle hout
        · refine ⟨?_, hinit⟩
          rw [direct, hrun]
          exact (if_neg hmemory).symm

theorem Valid.profileAll {rest : List ProfileCall} (h : Valid m calls u) (hrest : rest ⊆ calls)
    (hnamed : ∀ c ∈ calls, ∀ c' ∈ calls, c'.g.name = c.g.name → c'.g = c.g)
    (hsplit : ∀ c ∈ calls, splitSize batch_size c.replica_num = c.bs) :
    profileAll batch_size m u rest = rest.map (direct m) := by
  induction rest generalizing u with
  | nil => rfl
  | cons c rest ih =>
    obtain ⟨hc, hrest⟩ := List.cons_subset.mp hrest
    obtain ⟨hanswer, hvalid⟩ := h.profile hc (hnamed c hc) (hsplit c hc)
    rw [ProfilerUtil.profileAll, List.map_cons, hanswer, ih hvalid hrest]

/-- A graph cannot be profiled for one share, and for no other reason than its memory. -/
def failsAt (k : MLProfileKey) : Measurement where
  run g bs checkpointing :=
    if (⟨g.name, bs, checkpointing⟩ : MLProfileKey) = k then .exception "" else .profile ⟨0, 0, 0⟩
  toString _ := ""
  monotone g bs bs' checkpointing _ h := by
    split_ifs at h
    · exact absurd h (by decide)
    · exact nomatch h

/-- Nothing ran out of memory so far. -/
def NoBounds (u : ProfilerUtil) : Prop := ∀ checkpointing name max_bs,
  u.max_batch_size_cache checkpointing name = some max_bs → max_bs = SIZE_MAX

theorem NoBounds.initMax (hmax : NoBounds u) (checkpointing : Bool) (name : String) :
    NoBounds (u.initMax checkpointing name) := by
  intro checkpointing' name' max_bs hget
  unfold ProfilerUtil.initMax at hget
  split_ifs at hget with h
  · exact hmax _ _ _ hget
  · unfold setMax at hget
    dsimp only at hget
    by_cases hcheck : checkpointing' = checkpointing
    · rw [hcheck, Function.update_self] at hget
      by_cases hname : name' = name
      · rw [hname, Function.update_self] at hget
        exact (Option.some.inj hget).symm
      · rw [Function.update_of_ne hname] at hget
        exact hmax _ _ _ hget
    · rw [Function.update_of_ne hcheck] at hget
      exact hmax _ _ _ hget

@[simp] theorem initMax_profile_cache (checkpointing : Bool) (name : String) :
    (u.initMax checkpointing name).profile_cache = u.profile_cache := by
  unfold ProfilerUtil.initMax
  split_ifs <;> rfl

theorem profile_failsAt (hmax : NoBounds u) (k : MLProfileKey)
    (hget : u.profile_cache c.key = none) :
    u.profile batch_size (failsAt k) c =
      if (⟨c.g.name, splitSize batch_size c.replica_num, c.checkpointing⟩ : MLProfileKey) = k then
        (u.initMax c.checkpointing c.g.name, .error "Failed to profile graph: ")
      else ((u.initMax c.checkpointing c.g.name).addProfile c.key ⟨0, 0, 0⟩, .ok ⟨0, 0, 0⟩) := by
  obtain ⟨max_bs, hentry⟩ := initMax_get u c.checkpointing c.g.name
  obtain rfl := hmax.initMax _ _ _ _ _ hentry
  unfold ProfilerUtil.profile
  rw [hget]
  dsimp only
  rw [hentry, Option.getD_some, if_neg (not_lt.mpr (bs_le c))]
  by_cases hk : (⟨c.g.name, splitSize batch_size c.replica_num, c.checkpointing⟩ :
      MLProfileKey) = k
  · have hrun : (failsAt k).run c.g (splitSize batch_size c.replica_num) c.checkpointing =
        .exception "" := if_pos hk
    rw [hrun, if_pos hk]
    rfl
  · have hrun : (failsAt k).run c.g (splitSize batch_size c.replica_num) c.checkpointing =
        .profile ⟨0, 0, 0⟩ := if_neg hk
    rw [hrun, if_neg hk]

/-- A graph that fails in this way is profiled again by every call for the share. A call for which
the profiler takes another share does not fail. -/
theorem profileAll_failsAt_ne {rest : List ProfileCall} (hc : c ∈ rest)
    (hsplit : splitSize batch_size c.replica_num ≠ c.bs) (hcache : u.profile_cache c.key = none)
    (hmax : NoBounds u) :
    profileAll batch_size (failsAt c.key) u rest ≠ rest.map (direct (failsAt c.key)) := by
  induction rest generalizing u with
  | nil => exact absurd hc List.not_mem_nil
  | cons d rest ih =>
    rw [profileAll, List.map_cons]
    intro hall
    obtain ⟨hanswer, hrest⟩ := List.cons.inj hall
    by_cases hkey : d.key = c.key
    · obtain ⟨hname, hbs, hcheck⟩ := (MLProfileKey.mk.injEq ..).mp hkey
      have hdirect : direct (failsAt c.key) d = .error "Failed to profile graph: " := by
        have hrun : (failsAt c.key).run d.g d.bs d.checkpointing = .exception "" := if_pos hkey
        rw [direct, hrun]
        exact if_neg (by decide)
      rw [profile_failsAt hmax _ (hkey ▸ hcache)] at hanswer hrest
      split_ifs at hanswer hrest with hrun
      · obtain ⟨-, hsame, -⟩ := (MLProfileKey.mk.injEq ..).mp hrun
        refine ih ?_ (by rwa [initMax_profile_cache]) (hmax.initMax _ _) hrest
        refine (List.mem_cons.mp hc).resolve_left ?_
        rintro rfl
        exact hsplit hsame
      · rw [hdirect] at hanswer
        exact nomatch hanswer
    · have hmem : c ∈ rest := by
        refine (List.mem_cons.mp hc).resolve_left ?_
        rintro rfl
        exact hkey rfl
      cases hget : u.profile_cache d.key with
      | some prof =>
        have hstate : (u.profile batch_size (failsAt c.key) d).1 = u := by
          unfold ProfilerUtil.profile
          rw [hget]
        rw [hstate] at hrest
        exact ih hmem hcache hmax hrest
      | none =>
        rw [profile_failsAt hmax _ hget] at hrest
        split_ifs at hrest
        · exact ih hmem (by rwa [initMax_profile_cache]) (hmax.initMax _ _) hrest
        · have hkept : ((u.initMax d.checkpointing d.g.name).addProfile d.key
              ⟨0, 0, 0⟩).profile_cache c.key = none := by
            unfold addProfile
            dsimp only
            rwa [Function.update_of_ne (Ne.symm hkey), initMax_profile_cache]
          have hbounds : NoBounds ((u.initMax d.checkpointing d.g.name).addProfile d.key
              ⟨0, 0, 0⟩) := hmax.initMax _ _
          exact ih hmem hkept hbounds hrest

/-- The answers are always those of profiling directly just where the profiler splits its batch as
the calls ask for. -/
theorem profileAll_direct_iff {batch_size : ℕ} {calls : List ProfileCall}
    (hnamed : ∀ c ∈ calls, ∀ c' ∈ calls, c'.g.name = c.g.name → c'.g = c.g) :
    (∀ m, profileAll batch_size m start calls = calls.map (direct m)) ↔
      ∀ c ∈ calls, splitSize batch_size c.replica_num = c.bs := by
  constructor
  · intro h c hc
    by_contra hsplit
    refine profileAll_failsAt_ne hc hsplit rfl (fun _ _ _ hget => ?_) (h (failsAt c.key))
    exact absurd hget (by simp [start])
  · intro hsplit m
    exact valid_start.profileAll (List.Subset.refl calls) hnamed hsplit

theorem splitSize_eq {total_batch_size replica_num : ℕ} (htotal : 0 < total_batch_size)
    (hreplica : 0 < replica_num) :
    splitSize total_batch_size replica_num = (ceilDiv total_batch_size replica_num).toNat := by
  have hlookup := calcDistBatchDims_lookup (Finset.range replica_num) 0 htotal 1 [] (j := 0)
    (by simpa using hreplica)
  have hlag : RoundRobin.lag replica_num 0 0 = 0 := by simp [RoundRobin.lag]
  simp only [sortRanks_range, List.getElem_range, Finset.card_range, one_mul, zero_mul,
    RoundRobin.dealt_eq hreplica, hlag] at hlookup
  have hceil : ceilDiv ((total_batch_size : ℤ) - (0 : ℕ)) replica_num = _ :=
    ceilDiv_sub hreplica hreplica
  rw [Nat.cast_zero, sub_zero] at hceil
  rw [splitSize, hlookup, hceil, Int.toNat_natCast]
  rfl

theorem profileAll_direct {batch_size : ℕ} (hbatch : 0 < batch_size) {calls : List ProfileCall}
    (hnamed : ∀ c ∈ calls, ∀ c' ∈ calls, c'.g.name = c.g.name → c'.g = c.g)
    (hsame : ∀ c ∈ calls, c.batch_size = batch_size) (m : Measurement) :
    profileAll batch_size m start calls = calls.map (direct m) :=
  valid_start.profileAll (List.Subset.refl calls) hnamed fun c hc => by
    rw [splitSize_eq hbatch c.replica_num_pos, ProfileCall.bs, hsame c hc]

/-- A graph that is asked for with half of the batch. -/
def halfCall : ProfileCall :=
  ⟨⟨"g", [], [], [], [], false⟩, 8, 1, false, by decide, by decide⟩

/-- Up to four examples fit into memory. -/
def fourFit : Measurement where
  run _ bs _ := if bs ≤ 4 then .profile ⟨bs, bs, bs⟩ else .exception "CUDA out of memory"
  toString _ := ""
  monotone _ bs bs' _ hle hout := by
    by_cases hfits : bs ≤ 4
    · rw [if_pos hfits] at hout
      exact nomatch hout
    · rw [if_neg hfits] at hout
      rwa [if_neg (by omega)]

/-- A graph that is asked for with the batch, on one replica and some more. -/
def shareCall (more : ℕ) : ProfileCall :=
  ⟨⟨"g", [], [], [], [], false⟩, 16, more + 1, false, by decide, Nat.succ_pos more⟩

/-- The graph on four replicas, twice, on two and on one. -/
def shareCalls : List ProfileCall := [shareCall 3, shareCall 3, shareCall 1, shareCall 0]

/-- The second answer is the kept profile, and the last one comes from the bound that is kept after
the third. -/
theorem profileAll_direct_iff_shares :
    (∀ m, profileAll 16 m start shareCalls = shareCalls.map (direct m)) ∧
      profileAll 16 fourFit start shareCalls =
        [.ok ⟨4, 4, 4⟩, .ok ⟨4, 4, 4⟩, .ok makeErrorProfile, .ok makeErrorProfile] ∧
      ((shareCalls.take 1).foldl (fun u c => (u.profile 16 fourFit c).1) start).profile_cache
        ⟨"g", 4, false⟩ = some ⟨4, 4, 4⟩ ∧
      ((shareCalls.take 3).foldl (fun u c => (u.profile 16 fourFit c).1) start).max_batch_size_cache
        false "g" = some 7 :=
  ⟨(profileAll_direct_iff fun c hc c' hc' _ => by
      have hgraph : ∀ c ∈ shareCalls, c.g = ⟨"g", [], [], [], [], false⟩ := by
        simp [shareCalls, shareCall]
      rw [hgraph c hc, hgraph c' hc']).mpr (by decide +kernel),
    by decide +kernel, by decide +kernel, by decide +kernel⟩

/-- The graph is profiled with the whole batch. -/
theorem not_profileAll_direct : ¬∀ (batch_size : ℕ) (calls : List ProfileCall),
    (∀ c ∈ calls, ∀ c' ∈ calls, c'.g.name = c.g.name → c'.g = c.g) →
    ∀ m, profileAll batch_size m start calls = calls.map (direct m) := by
  intro h
  have hanswers := h 16 [halfCall] (fun c hc c' hc' _ => by
    rw [List.mem_singleton.mp hc, List.mem_singleton.mp hc'])
      ⟨fun _ bs _ => .profile ⟨bs, bs, bs⟩, fun _ => "", fun _ _ _ _ _ h => (nomatch h)⟩
  revert hanswers
  decide +kernel

end ProfilerUtil

end Rannc
