import Rannc.Comp.ParamLocator

/-!
# Ids that are used again

A removal forgets some of the tables of a parameter and leaves the others. The ids are those of
Python objects, so another parameter may come by the id of one that was removed.
-/
namespace Rannc

variable {α : Type} [Zero α]

/-- A call on the locator of a rank. -/
inductive LocatorCall (α : Type)
  | store (global_id pid : ℤ) (param : Tensor α)
  | remove (pid : ℤ)

namespace LocatorCall

def run (my_rank : ℕ) (all_ranks : Finset ℕ) (s : ParamLocator α) :
    LocatorCall α → ParamLocator α
  | store global_id pid param => s.store my_rank global_id pid param all_ranks
  | remove pid => s.remove pid

/-- What the calls leave. -/
def runAll (my_rank : ℕ) (all_ranks : Finset ℕ) (calls : List (LocatorCall α)) : ParamLocator α :=
  calls.foldl (run my_rank all_ranks) .empty

omit [Zero α]

/-- The tensor that a call stores by an id. -/
def storedBy (pid : ℤ) : LocatorCall α → Option (Tensor α)
  | store _ id param => if id = pid then some param else none
  | remove _ => none

def register (pid : ℤ) (registered : Option (Tensor α)) : LocatorCall α → Option (Tensor α)
  | store _ id param => if id = pid then some param else registered
  | remove id => if id = pid then none else registered

/-- The tensor that is registered by an id, which is the one stored last. -/
def registered (pid : ℤ) (calls : List (LocatorCall α)) : Option (Tensor α) :=
  calls.foldl (register pid) none

/-- All tensors that were ever stored by an id. -/
def storedAll (pid : ℤ) (calls : List (LocatorCall α)) : List (Tensor α) :=
  calls.filterMap (storedBy pid)

theorem getLast?_storedAll {pid : ℤ} {calls : List (LocatorCall α)} {param : Tensor α}
    (h : registered pid calls = some param) : (storedAll pid calls).getLast? = some param := by
  induction calls using List.reverseRecOn with
  | nil => simp [registered] at h
  | append_singleton calls call ih =>
    unfold registered at h ih
    unfold storedAll at ih ⊢
    rw [List.foldl_append, List.foldl_cons, List.foldl_nil] at h
    rw [List.filterMap_append]
    cases call with
    | store global_id id param' =>
      by_cases hid : id = pid
      · have hparam : param' = param := by simpa [register, hid] using h
        simp [storedBy, hid, hparam]
      · have hold := ih (by simpa [register, hid] using h)
        simpa [storedBy, hid] using hold
    | remove id =>
      by_cases hid : id = pid
      · simp [register, hid] at h
      · have hold := ih (by simpa [register, hid] using h)
        simpa [storedBy] using hold

end LocatorCall

open LocatorCall

section Tables

variable (my_rank : ℕ) {all_ranks : Finset ℕ} (pid : ℤ)

theorem tables_store (all_ranks : Finset ℕ) (global_id id : ℤ) (param : Tensor α)
    (s : ParamLocator α) :
    (s.store my_rank global_id id param all_ranks).offsets =
        (s.doRegister my_rank global_id id param all_ranks).offsets ∧
      (s.store my_rank global_id id param all_ranks).src_sizes =
        (s.doRegister my_rank global_id id param all_ranks).src_sizes := by
  unfold ParamLocator.store
  dsimp only
  constructor <;> split <;> rfl

/-- The segments that a call adds to those of an id. -/
def addedBy (all_ranks : Finset ℕ) (pid : ℤ) (call : LocatorCall α) : List (ℕ × ℕ) :=
  (storedBy pid call).toList.flatMap fun param => doRegister param.numel all_ranks

theorem tables_run (hranks : all_ranks.Nonempty) (s : ParamLocator α) (call : LocatorCall α) :
    ((run my_rank all_ranks s call).offsets.get pid).getD [] =
        (s.offsets.get pid).getD [] ++ (addedBy all_ranks pid call).map Prod.fst ∧
      ((run my_rank all_ranks s call).src_sizes.get pid).getD [] =
        (s.src_sizes.get pid).getD [] ++ (addedBy all_ranks pid call).map Prod.snd := by
  cases call with
  | store global_id id param =>
    have htables := tables_store my_rank all_ranks global_id id param s
    unfold run
    rw [htables.1, htables.2, ParamLocator.offsets_doRegister _ _ _ _ _ hranks,
      ParamLocator.src_sizes_doRegister _ _ _ _ _ hranks]
    by_cases hid : id = pid
    · simp [addedBy, storedBy, hid]
    · simp [addedBy, storedBy, hid, Ne.symm hid]
  | remove id => simp [run, addedBy, storedBy, ParamLocator.remove]

theorem tables_runAll (hranks : all_ranks.Nonempty) (calls : List (LocatorCall α)) :
    ((runAll my_rank all_ranks calls).offsets.get pid).getD [] =
        ((storedAll pid calls).flatMap fun param =>
          doRegister param.numel all_ranks).map Prod.fst ∧
      ((runAll my_rank all_ranks calls).src_sizes.get pid).getD [] =
        ((storedAll pid calls).flatMap fun param =>
          doRegister param.numel all_ranks).map Prod.snd := by
  induction calls using List.reverseRecOn with
  | nil => exact ⟨rfl, rfl⟩
  | append_singleton calls call ih =>
    have hstep := tables_run my_rank pid hranks (runAll my_rank all_ranks calls) call
    have hrun : runAll my_rank all_ranks (calls ++ [call]) =
        run my_rank all_ranks (runAll my_rank all_ranks calls) call := by simp [runAll]
    have hadded : (storedAll pid (calls ++ [call])).flatMap
        (fun param => doRegister param.numel all_ranks) =
          (storedAll pid calls).flatMap (fun param => doRegister param.numel all_ranks) ++
            addedBy all_ranks pid call := by
      cases hcall : storedBy pid call <;> simp [storedAll, addedBy, hcall]
    rw [hrun, hadded, hstep.1, hstep.2, ih.1, ih.2, List.map_append, List.map_append]
    exact ⟨rfl, rfl⟩

end Tables

/-- A parameter has one offset and one size for each rank, and these partition it. -/
structure RegisteredOnce (pid : ℤ) (numel : ℕ) (all_ranks : Finset ℕ) (s : ParamLocator α) :
    Prop where
  tables : ∃ offsets src_sizes, s.offsets.get pid = some offsets ∧
    s.src_sizes.get pid = some src_sizes ∧ offsets.length = all_ranks.card ∧
    src_sizes.length = all_ranks.card ∧ Cuts 0 (offsets.zip src_sizes) numel

/-- After some calls, every registered parameter is registered as the tensor stored last. -/
def StartsAfresh (my_rank : ℕ) (all_ranks : Finset ℕ) (calls : List (LocatorCall α)) : Prop :=
  ∀ pid param, registered pid calls = some param →
    RegisteredOnce pid param.numel all_ranks (runAll my_rank all_ranks calls)

omit [Zero α] in
theorem length_flatMap_doRegister (all_ranks : Finset ℕ) (params : List (Tensor α)) :
    (params.flatMap fun param => doRegister param.numel all_ranks).length =
      params.length * all_ranks.card := by
  simp [List.length_flatMap]

theorem startsAfresh_iff (my_rank : ℕ) (all_ranks : Finset ℕ) (hrank : my_rank ∈ all_ranks)
    (calls : List (LocatorCall α)) :
    StartsAfresh my_rank all_ranks calls ↔
      ∀ pid, (registered pid calls).isSome → (storedAll pid calls).length = 1 := by
  have hranks : all_ranks.Nonempty := ⟨my_rank, hrank⟩
  have hcard : 0 < all_ranks.card := hranks.card_pos
  constructor
  · intro h pid hregistered
    obtain ⟨param, hparam⟩ := Option.isSome_iff_exists.mp hregistered
    obtain ⟨offsets, src_sizes, hoffsets, -, hlength, -, -⟩ := (h pid param hparam).tables
    have htables := (tables_runAll my_rank pid hranks calls).1
    rw [hoffsets, Option.getD_some] at htables
    rw [htables, List.length_map, length_flatMap_doRegister] at hlength
    exact Nat.eq_of_mul_eq_mul_right hcard (hlength.trans (Nat.one_mul _).symm)
  · intro h pid param hregistered
    obtain ⟨only, honly⟩ := List.length_eq_one_iff.mp (h pid (by simp [hregistered]))
    have hlast := getLast?_storedAll hregistered
    rw [honly, List.getLast?_singleton, Option.some.injEq] at hlast
    have htables := tables_runAll my_rank pid hranks calls
    rw [honly, hlast, List.flatMap_cons, List.flatMap_nil, List.append_nil] at htables
    have hpos : 0 < (doRegister param.numel all_ranks).length := by simpa using hranks
    have hsome {table : Option (List ℕ)} {l : List ℕ} (htable : table.getD [] = l)
        (hl : 0 < l.length) : table = some l := by
      cases table with
      | none => simp [← htable] at hl
      | some _ => rw [← htable, Option.getD_some]
    refine ⟨_, _, hsome htables.1 (by simpa using hpos), hsome htables.2 (by simpa using hpos),
      by simp, by simp, ?_⟩
    have hzip : ((doRegister param.numel all_ranks).map Prod.fst).zip
        ((doRegister param.numel all_ranks).map Prod.snd) = doRegister param.numel all_ranks := by
      simp [List.zip_map']
    rw [hzip]
    exact doRegister_cuts hranks param.numel

def threeElements : Tensor ℕ := Tensor.ofList .FLOAT true [1, 2, 3]

theorem startsAfresh_iff_two :
    StartsAfresh 0 {0, 1} [.store 5 5 fourElements, .store 6 6 threeElements, .remove 5] :=
  (startsAfresh_iff 0 {0, 1} (by decide) _).mpr (by
    intro pid hregistered
    by_cases hfive : 5 = pid
    · simp [registered, register, hfive] at hregistered
    · by_cases hsix : 6 = pid
      · simp [storedAll, storedBy, hfive, hsix]
      · simp [registered, register, hfive, hsix] at hregistered)

/-- An id is used for another parameter after the first is removed. -/
theorem not_startsAfresh :
    ¬ StartsAfresh 0 {0, 1} [.store 5 5 fourElements, .remove 5, .store 5 5 threeElements] := by
  intro h
  obtain ⟨offsets, src_sizes, hoffsets, -, hlength, -⟩ := (h 5 threeElements rfl).tables
  have hall : (runAll 0 {0, 1} [.store 5 5 fourElements, .remove 5,
      .store 5 5 threeElements]).offsets.get 5 = some [0, 2, 0, 2] := rfl
  rw [hall, Option.some.injEq] at hoffsets
  rw [← hoffsets] at hlength
  exact absurd hlength (by decide)

namespace ParamLocator

/-- Nothing of a parameter is in the tables. -/
structure Forgotten (pid : ℤ) (s : ParamLocator α) : Prop where
  offsets : s.offsets.get pid = none
  src_sizes : s.src_sizes.get pid = none
  ir_types : s.ir_types.get pid = none
  segment_sizes : s.segment_sizes.get pid = none
  ranks : s.ranks.get pid = none
  my_indices : s.my_indices.get pid = none
  param_parts : s.param_parts.get pid = none
  global_ids : ∀ global_id, s.global_id_to_local.get global_id ≠ some pid

/-- Two locators have the same entries of a parameter. -/
structure SameEntries (pid : ℤ) (s s' : ParamLocator α) : Prop where
  offsets : s'.offsets.get pid = s.offsets.get pid
  src_sizes : s'.src_sizes.get pid = s.src_sizes.get pid
  ir_types : s'.ir_types.get pid = s.ir_types.get pid
  segment_sizes : s'.segment_sizes.get pid = s.segment_sizes.get pid
  ranks : s'.ranks.get pid = s.ranks.get pid
  my_indices : s'.my_indices.get pid = s.my_indices.get pid
  param_parts : s'.param_parts.get pid = s.param_parts.get pid
  global_ids : ∀ global_id, s.global_id_to_local.get global_id = some pid →
    s'.global_id_to_local.get global_id = some pid

/-- The parameters that a rank loads when the first rank asks for some, up to the id 0. -/
def fetchStart (s : ParamLocator α) : List ℤ → Option (List ℤ)
  | [] => none
  | global_pid :: global_pids =>
    if global_pid = 0 then some []
    else do
      let pid ← s.global_id_to_local.get global_pid
      some (pid :: (← fetchStart s global_pids))

/-- A removal touches a parameter and no other. -/
structure RemovedAlone (pid : ℤ) (s s' : ParamLocator α) : Prop where
  forgotten : s'.Forgotten pid
  others : ∀ other, other ≠ pid → SameEntries other s s'
  fetched : ∀ global_pids,
    (∀ global_pid ∈ global_pids, s.global_id_to_local.get global_pid ≠ some pid) →
      s'.fetchStart global_pids = s.fetchStart global_pids

omit [Zero α]

variable (pid : ℤ) (s : ParamLocator α)

/-- The mapping of the global ids is right after a removal if they are the local ones. -/
theorem global_ids_remove_iff :
    ((∀ global_id, (s.remove pid).global_id_to_local.get global_id ≠ some pid) ∧
      ∀ global_id other, other ≠ pid → s.global_id_to_local.get global_id = some other →
        (s.remove pid).global_id_to_local.get global_id = some other) ↔
    ∀ global_id other, s.global_id_to_local.get global_id = some other →
      (global_id = pid ↔ other = pid) := by
  unfold remove
  dsimp only
  simp only [Dict.get_erase]
  constructor
  · rintro ⟨hpid, hothers⟩ global_id other hother
    constructor
    · intro hglobal
      by_contra hsame
      have hkept := hothers global_id other hsame hother
      simp [hglobal] at hkept
    · intro hsame
      by_contra hglobal
      have hgone := hpid global_id
      simp [hglobal, hother, hsame] at hgone
  · intro h
    constructor
    · intro global_id hget
      by_cases hglobal : global_id = pid
      · simp [hglobal] at hget
      · rw [if_neg hglobal] at hget
        exact hglobal ((h global_id pid hget).mpr rfl)
    · intro global_id other hother hget
      rw [if_neg fun hglobal => hother ((h global_id other hget).mp hglobal)]
      exact hget

end ParamLocator

/-- A parameter with its ids on the ranks. -/
abbrev Registration (α : Type) := (ℕ → ℤ) × Tensor α

/-- The locators of all ranks after some parameters were stored. -/
def registerAll (all_ranks : Finset ℕ) (registrations : List (Registration α)) :
    ℕ → ParamLocator α :=
  registrations.foldl (fun s it => ParamLocator.storeAll it.1 it.2 all_ranks s) fun _ => .empty

theorem offsets_registerAll {all_ranks : Finset ℕ} (hranks : all_ranks.Nonempty)
    {registrations : List (Registration α)} {it : Registration α} (hit : it ∈ registrations)
    (rank : ℕ) : ((registerAll all_ranks registrations rank).offsets.get (it.1 rank)).isSome := by
  induction registrations using List.reverseRecOn with
  | nil => simp at hit
  | append_singleton registrations last ih =>
    have hrun : registerAll all_ranks (registrations ++ [last]) =
        ParamLocator.storeAll last.1 last.2 all_ranks (registerAll all_ranks registrations) := by
      simp [registerAll]
    rw [hrun]
    unfold ParamLocator.storeAll
    rw [(tables_store ..).1, ParamLocator.offsets_doRegister _ _ _ _ _ hranks]
    split_ifs with hsame
    · rfl
    · cases List.mem_append.mp hit with
      | inl hold => exact ih hold
      | inr hlast => exact absurd (congrArg (fun x => x.1 rank) (List.mem_singleton.mp hlast)) hsame

/-- A removed parameter always keeps its offsets. -/
theorem not_removedAlone (all_ranks : Finset ℕ) (registrations : List (Registration α))
    (it : Registration α) (hit : it ∈ registrations) (rank : ℕ) (hrank : rank ∈ all_ranks) :
    ¬ ParamLocator.RemovedAlone (it.1 rank) (registerAll all_ranks registrations rank)
      ((registerAll all_ranks registrations rank).remove (it.1 rank)) := by
  intro h
  have hsome := offsets_registerAll ⟨rank, hrank⟩ hit rank
  have hnone : (registerAll all_ranks registrations rank).offsets.get (it.1 rank) = none :=
    h.forgotten.offsets
  rw [hnone] at hsome
  exact absurd hsome (by simp)

/-- Two parameters whose ids are exchanged on the second rank. -/
def crossed : List (Registration ℕ) :=
  [(fun rank => if rank = 0 then 5 else 6, fourElements),
    (fun rank => if rank = 0 then 6 else 5, threeElements)]

theorem not_removedAlone_crossed :
    ¬ ParamLocator.RemovedAlone 6 (registerAll {0, 1} crossed 1)
      ((registerAll {0, 1} crossed 1).remove 6) :=
  not_removedAlone {0, 1} crossed (fun rank => if rank = 0 then 5 else 6, fourElements)
    (by simp [crossed]) 1 (by decide)

/-- The removal of the first parameter makes the second one unknown to rank 1, which no longer
fetches it. -/
theorem not_fetched_crossed :
    (registerAll {0, 1} crossed 1).fetchStart [6, 0] = some [5] ∧
      ((registerAll {0, 1} crossed 1).remove 6).fetchStart [6, 0] = none ∧
      ¬ ParamLocator.RemovedAlone 6 (registerAll {0, 1} crossed 1)
        ((registerAll {0, 1} crossed 1).remove 6) := by
  have hbefore : (registerAll {0, 1} crossed 1).fetchStart [6, 0] = some [5] := rfl
  have hafter : ((registerAll {0, 1} crossed 1).remove 6).fetchStart [6, 0] = none := rfl
  refine ⟨hbefore, hafter, fun h => ?_⟩
  have hsame := h.fetched [6, 0] (by
    intro global_pid hmem
    have hsix : (registerAll {0, 1} crossed 1).global_id_to_local.get 6 = some 5 := rfl
    have hzero : (registerAll {0, 1} crossed 1).global_id_to_local.get 0 = none := rfl
    rcases List.mem_cons.mp hmem with rfl | hmem
    · rw [hsix]
      decide
    · rw [List.mem_singleton.mp hmem, hzero]
      decide)
  rw [hbefore, hafter] at hsame
  exact absurd hsame (by simp)

end Rannc
