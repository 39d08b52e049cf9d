import Rannc.Opt.ParamOrder

/-!
# The optimizer of torch

State dicts as the base class of optimizers makes and loads them.
-/
namespace Rannc

variable {P S O : Type} [DecidableEq P]

namespace Optimizer

def state_dict (opt : Optimizer P S O) : StateDict S O where
  state := some (Dict.ofZip (List.range opt.params.length) opt.params opt.state.get)
  param_groups := numberGroups 0 opt.param_groups

/-- Parameters have the order of the groups. -/
def reloaded (opt : Optimizer P S O) (saved_groups : List (ParamGroup ℕ O)) (state : Dict ℕ S) :
    Optimizer P S O where
  param_groups := List.zipWith (fun g ng => { ng with params := g.params })
    opt.param_groups saved_groups
  state := Dict.ofZip opt.params (paramsOf saved_groups) state.get

def load_state_dict (opt : Optimizer P S O) (saved : StateDict S O) :
    Option (Optimizer P S O) := do
  let state ← saved.state
  guard (groupSizes saved.param_groups = groupSizes opt.param_groups)
  return opt.reloaded saved.param_groups state

theorem get_state_dict (opt : Optimizer P S O) (i : ℕ) :
    (Dict.ofZip (List.range opt.params.length) opt.params opt.state.get).get i =
      (opt.params[i]?).bind opt.state.get := by
  rw [Dict.get_ofZip List.nodup_range]
  by_cases hi : i < opt.params.length
  · have hlt : i < (List.range opt.params.length).length := by rwa [List.length_range]
    have hidx := List.nodup_range.idxOf_getElem i hlt
    rw [List.getElem_range] at hidx
    rw [if_pos (List.mem_range.mpr hi), hidx]
  · rw [if_neg (mt List.mem_range.mp hi), List.getElem?_eq_none (not_lt.mp hi)]
    rfl

end Optimizer

/-- The contract of state dicts holds for it. -/
def torchOptimizer : StateProtocol P S O where
  state_dict := Optimizer.state_dict
  load_state_dict := Optimizer.load_state_dict
  state_dict_groups := fun _ _ => rfl
  state_dict_state := fun opt _ => ⟨_, rfl, opt.get_state_dict⟩
  load_state := by
    intro opt saved state hopt hstate _ _ hsizes
    refine ⟨opt.reloaded saved.param_groups state, ?_, rfl, fun p => ?_⟩
    · unfold Optimizer.load_state_dict
      rw [hstate, hsizes]
      simp only [Option.bind_eq_bind, Option.bind_some, guard_true]
      rfl
    · exact Dict.get_ofZip hopt.nodup _ _ p
  load_no_state := by
    intro opt saved hstate
    unfold Optimizer.load_state_dict
    rw [hstate]
    rfl

end Rannc
