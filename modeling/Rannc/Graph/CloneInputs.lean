import Rannc.Lib.RenameApart
import Rannc.Graph.Evaluation
import Rannc.Graph.GraphMem
import Rannc.Graph.MLGraph
import Mathlib.Data.String.Basic

/-!
# Clones of shared inputs

An input that several nodes read is replaced by clones. There is one clone for each node that reads
the input, but each time that it is read takes one: a node that reads it twice leaves none for the
others.
-/
namespace Rannc.IRGraph

open Dataflow RenameApart

variable (g : IRGraph)

def graphInputValues (is_param : Bool) : Option (List IRValue) := do
  let vals ← g.input_names.mapM g.getValue
  return vals.filter fun val => val.is_param == is_param

def countSharedRefs (input_vals : List IRValue) : List (String × ℕ) :=
  input_vals.filterMap fun val =>
    let ref_count := countValueRefCount g val.name
    if ref_count > 1 then some (val.name, ref_count) else none

def cloneName (graph_in_name : String) (i : ℕ) : String := graph_in_name ++ "_cl" ++ toString i

section Parts

variable (clones : String → Option (List String))

def cloneValues : List (String × IRValue) :=
  g.values.flatMap fun it =>
    match clones it.2.name with
    | some cl_names => cl_names.map fun cl_name => (cl_name, { it.2 with name := cl_name })
    | none => [it]

/-- The nodes with other inputs. -/
def cloneNodes (ids : NameSupply) (input_names : List (List String)) : List IRNode :=
  (g.nodes.zip input_names).mapIdx fun k it =>
    ⟨it.1.name, it.2, it.1.output_names, ids.generateName k "node_", false, false⟩

/-- A cloned input can also be an output. -/
def cloneOutput (o : String) : Option String :=
  match clones o with
  | some cl_names => cl_names.head?
  | none => some o

end Parts

/-- The graph with clones, and the clones. -/
def cloneSharedInputs (ids : NameSupply) : Option (IRGraph × List (String × List String)) := do
  let no_param_inputs ← g.graphInputValues false
  let param_inputs ← g.graphInputValues true
  let shared_input_ref_count :=
    countSharedRefs g no_param_inputs ++ countSharedRefs g param_inputs
  let cloneNames := fun graph_in_name => (shared_input_ref_count.lookup graph_in_name).map
    fun ref_count => (List.range ref_count).map (cloneName graph_in_name)
  let shared_val_cl_names := g.input_names.filterMap fun graph_in_name =>
    (cloneNames graph_in_name).map fun cl_names => (graph_in_name, cl_names)
  let graph_input_names := g.input_names.flatMap fun graph_in_name =>
    (cloneNames graph_in_name).getD [graph_in_name]
  let values := g.cloneValues fun name => shared_val_cl_names.lookup name
  let input_names ← renameAll (fun name => shared_val_cl_names.lookup name) (fun _ => 0)
    (g.nodes.map IRNode.input_names)
  let output_names ← g.output_names.mapM
    (cloneOutput fun name => shared_val_cl_names.lookup name)
  let new_g ← create g.name (g.cloneNodes ids input_names) values graph_input_names output_names
  return (new_g, shared_val_cl_names)

/-- Several nodes read the input. -/
def IsShared (name : String) : Prop := name ∈ g.input_names ∧ 1 < countValueRefCount g name

instance (name : String) : Decidable (g.IsShared name) := inferInstanceAs (Decidable (_ ∧ _))

def clonesOf (name : String) : Option (List String) :=
  if g.IsShared name then some ((List.range (countValueRefCount g name)).map (cloneName name))
  else none

/-- Each clone is read once, and with the clones bound to the original values the new graph means
the same. -/
structure ClonesSound (new_g : IRGraph) (cl_names : List (String × List String)) : Prop where
  once : ∀ it ∈ cl_names, ∀ cl_name ∈ it.2,
    (new_g.nodes.flatMap IRNode.input_names).count cl_name = 1
  meaning : ∀ (V : Type) (I : Interp String V) (vals new_vals : String → V),
    (∀ it ∈ cl_names, ∀ cl_name ∈ it.2, new_vals cl_name = vals it.1) →
    (∀ name ∈ g.input_names, name ∉ cl_names.map Prod.fst → new_vals name = vals name) →
    new_g.eval I new_vals = g.eval I vals

/-- No node reads a shared input twice, and the names of clones name nothing else. -/
structure CloneSafe : Prop where
  once : ∀ name, g.IsShared name → ∀ n ∈ g.nodes, n.input_names.count name ≤ 1
  fresh : ∀ name, g.IsShared name → ∀ i < countValueRefCount g name,
    cloneName name i ∈ g.definedNames → g.IsShared (cloneName name i)

theorem append_cons_inj {α : Type} {a a' d d' : List α} {s : α} (hd : s ∉ d) (hd' : s ∉ d')
    (h : a ++ s :: d = a' ++ s :: d') : a = a' ∧ d = d' := by
  rcases List.append_eq_append_iff.mp h with ⟨as, ha, hrest⟩ | ⟨as, ha, hrest⟩
  · cases as with
    | nil => exact ⟨by rw [ha, List.append_nil], (List.cons.inj hrest).2⟩
    | cons b as =>
      refine absurd ?_ hd
      rw [(List.cons.inj hrest).2]
      exact List.mem_append_right _ List.mem_cons_self
  · cases as with
    | nil => exact ⟨by rw [ha, List.append_nil], (List.cons.inj hrest).2.symm⟩
    | cons b as =>
      refine absurd ?_ hd'
      rw [(List.cons.inj hrest).2]
      exact List.mem_append_right _ List.mem_cons_self

theorem cloneName_injective {name name' : String} {i j : ℕ}
    (h : cloneName name i = cloneName name' j) : name = name' ∧ i = j := by
  have htoList : ∀ (name : String) (i : ℕ), (cloneName name i).toList =
      (name.toList ++ ['_', 'c']) ++ 'l' :: Nat.toDigits 10 i := by
    intro name i
    simp [cloneName]
  have hdigit : ∀ i : ℕ, 'l' ∉ Nat.toDigits 10 i := by
    intro i hmem
    have hl := Nat.isDigit_of_mem_toDigits (by decide) (by decide) hmem
    revert hl
    decide
  have hlist := congrArg String.toList h
  rw [htoList, htoList] at hlist
  obtain ⟨hname, hindex⟩ := append_cons_inj (hdigit i) (hdigit j) hlist
  exact ⟨String.toList_inj.mp (List.append_cancel_right hname), toDigits_inj hindex⟩

section Clones

variable {g}

theorem clonesOf_of_shared {name : String} (h : g.IsShared name) : g.clonesOf name =
    some ((List.range (countValueRefCount g name)).map (cloneName name)) :=
  if_pos h

theorem clonesOf_eq_some {name : String} {cl_names : List String}
    (h : g.clonesOf name = some cl_names) : g.IsShared name ∧
      cl_names = (List.range (countValueRefCount g name)).map (cloneName name) := by
  unfold clonesOf at h
  split_ifs at h with hshared
  exact ⟨hshared, (Option.some.inj h).symm⟩

theorem clonesOf_eq_none {name : String} : g.clonesOf name = none ↔ ¬g.IsShared name := by
  unfold clonesOf
  split_ifs with hshared <;> simp [hshared]

theorem mem_clonesOf {name cl_name : String} {cl_names : List String}
    (h : g.clonesOf name = some cl_names) : cl_name ∈ cl_names ↔
      ∃ i < countValueRefCount g name, cloneName name i = cl_name := by
  rw [(clonesOf_eq_some h).2, List.mem_map]
  simp

theorem nodup_clonesOf {name : String} {cl_names : List String}
    (h : g.clonesOf name = some cl_names) : cl_names.Nodup := by
  rw [(clonesOf_eq_some h).2]
  exact List.nodup_range.map fun i j hij => (cloneName_injective hij).2

/-- The clones of all shared inputs. -/
def sharedClones (g : IRGraph) : List (String × List String) :=
  g.input_names.filterMap fun name => (g.clonesOf name).map fun cl_names => (name, cl_names)

theorem lookup_filterMap {α : Type} (f : String → Option α) (l : List String) (name : String) :
    (l.filterMap fun key => (f key).map fun a => (key, a)).lookup name =
      if name ∈ l then f name else none := by
  induction l with
  | nil => rfl
  | cons key l ih =>
    by_cases heq : name = key
    · subst heq
      rw [if_pos List.mem_cons_self]
      cases hf : f name with
      | none =>
        rw [List.filterMap_cons_none (by rw [hf]; rfl), ih]
        split_ifs
        · exact hf
        · rfl
      | some a =>
        rw [List.filterMap_cons_some (b := (name, a)) (by rw [hf]; rfl), List.lookup_cons_self]
    · have hmem : name ∈ key :: l ↔ name ∈ l := by simp [heq]
      simp only [hmem]
      rw [← ih]
      cases hf : f key with
      | none => rw [List.filterMap_cons_none (by rw [hf]; rfl)]
      | some a =>
        rw [List.filterMap_cons_some (b := (key, a)) (by rw [hf]; rfl), List.lookup_cons,
          beq_eq_false_iff_ne.mpr heq]

theorem lookup_sharedClones (name : String) : g.sharedClones.lookup name = g.clonesOf name := by
  unfold sharedClones
  rw [lookup_filterMap]
  split_ifs with hmem
  · rfl
  · exact (clonesOf_eq_none.mpr fun hshared => hmem hshared.1).symm

theorem lookup_countSharedRefs (vals : List IRValue) (name : String) :
    (g.countSharedRefs vals).lookup name =
      if name ∈ vals.map IRValue.name then
        (if 1 < countValueRefCount g name then some (countValueRefCount g name) else none)
      else none := by
  rw [← lookup_filterMap (fun name =>
    if 1 < countValueRefCount g name then some (countValueRefCount g name) else none),
    List.filterMap_map]
  unfold countSharedRefs
  congr 2
  funext val
  dsimp only [Function.comp_apply]
  split_ifs <;> rfl

end Clones

section Count

variable {g}

theorem countP_le_count (name : String) (nodes : List IRNode) :
    nodes.countP (fun n => name ∈ n.input_names) ≤
      (nodes.flatMap IRNode.input_names).count name := by
  induction nodes with
  | nil => exact le_rfl
  | cons n nodes ih =>
    rw [List.flatMap_cons, List.count_append, List.countP_cons]
    split_ifs with hmem
    · have hpos := List.count_pos_iff.mpr (of_decide_eq_true hmem)
      omega
    · omega

theorem count_le_countP_iff (name : String) (nodes : List IRNode) :
    (nodes.flatMap IRNode.input_names).count name ≤
      nodes.countP (fun n => name ∈ n.input_names) ↔
    ∀ n ∈ nodes, n.input_names.count name ≤ 1 := by
  induction nodes with
  | nil => simp
  | cons n nodes ih =>
    have hle := countP_le_count name nodes
    rw [List.flatMap_cons, List.count_append, List.countP_cons, List.forall_mem_cons, ← ih]
    split_ifs with hmem
    · have hpos := List.count_pos_iff.mpr (of_decide_eq_true hmem)
      omega
    · have hzero : n.input_names.count name = 0 :=
        List.count_eq_zero.mpr fun hin => hmem (decide_eq_true hin)
      omega

theorem renameAll_isSome_iff :
    (renameAll g.clonesOf (fun _ => 0) (g.nodes.map IRNode.input_names)).isSome ↔
      ∀ name, g.IsShared name → ∀ n ∈ g.nodes, n.input_names.count name ≤ 1 := by
  have hsame := congrArg Option.isSome
    (renameAll_eq g.clonesOf (fun _ => 0) (g.nodes.map IRNode.input_names))
  rw [Option.isSome_map, Option.isSome_map, Bool.eq_iff_iff] at hsame
  rw [hsame, rename_isSome_iff fun _ _ _ => Nat.zero_le _]
  constructor
  · intro h name hshared
    have hle := h name _ (clonesOf_of_shared hshared)
    rw [List.length_map, List.length_range, Nat.zero_add, ← List.flatMap_def] at hle
    exact (count_le_countP_iff name g.nodes).mp hle
  · intro h name cl_names hname
    obtain ⟨hshared, rfl⟩ := clonesOf_eq_some hname
    rw [List.length_map, List.length_range, Nat.zero_add, ← List.flatMap_def]
    exact (count_le_countP_iff name g.nodes).mpr (h name hshared)

end Count

section Build

variable {g} (hg : g.Verified)
include hg

theorem Verified.mapM_getValue : ∃ vals, g.input_names.mapM g.getValue = some vals ∧
    vals.map IRValue.name = g.input_names := by
  have haux : ∀ names : List String, names ⊆ g.input_names →
      ∃ vals, names.mapM g.getValue = some vals ∧ vals.map IRValue.name = names := by
    intro names
    induction names with
    | nil => exact fun _ => ⟨[], rfl, rfl⟩
    | cons name names ih =>
      intro hsub
      obtain ⟨value, hvalue, hname⟩ :=
        hg.values name (mem_definedNames.mpr (Or.inl (hsub List.mem_cons_self)))
      obtain ⟨vals, hvals, hnames⟩ := ih fun a ha => hsub (List.mem_cons_of_mem _ ha)
      refine ⟨value :: vals, ?_, ?_⟩
      · rw [List.mapM_cons, hvalue, hvals]
        rfl
      · rw [List.map_cons, hname, hnames]
  exact haux g.input_names fun _ h => h

/-- Parameters and others together are all inputs. -/
theorem Verified.exists_sharedRefs : ∃ no_param_inputs param_inputs,
    g.graphInputValues false = some no_param_inputs ∧
    g.graphInputValues true = some param_inputs ∧
    ∀ name, (countSharedRefs g no_param_inputs ++ countSharedRefs g param_inputs).lookup name =
      if g.IsShared name then some (countValueRefCount g name) else none := by
  obtain ⟨vals, hvals, hnames⟩ := hg.mapM_getValue
  refine ⟨vals.filter fun val => val.is_param == false, vals.filter fun val => val.is_param == true,
    ?_, ?_, fun name => ?_⟩
  · unfold graphInputValues
    rw [hvals]
    rfl
  · unfold graphInputValues
    rw [hvals]
    rfl
  · have hmem : name ∈ g.input_names ↔
        name ∈ (vals.filter fun val => val.is_param == false).map IRValue.name ∨
          name ∈ (vals.filter fun val => val.is_param == true).map IRValue.name := by
      rw [← hnames]
      simp only [List.mem_map, List.mem_filter, beq_iff_eq, ← exists_or]
      apply exists_congr
      intro val
      cases val.is_param <;> simp
    have hshared := and_congr_left' (c := 1 < countValueRefCount g name) hmem
    change g.IsShared name ↔ _ at hshared
    rw [List.lookup_append, lookup_countSharedRefs, lookup_countSharedRefs]
    simp only [hshared]
    by_cases hno_param : name ∈ (vals.filter fun val => val.is_param == false).map IRValue.name
    · simp only [hno_param, true_or, true_and, if_true]
      split_ifs <;> rfl
    · simp only [hno_param, false_or, if_false, Option.none_or]
      rw [ite_and]

/-- A node that reads clones. -/
structure ClonedNode (g : IRGraph) (new_n n : IRNode) : Prop where
  name : new_n.name = n.name
  reads : List.Forall₂ (RenamedFrom g.clonesOf) new_n.input_names n.input_names
  writes : new_n.output_names = n.output_names

/-- The graph with clones, when each occurrence has one. -/
structure Cloned (g : IRGraph) (input_names : List (List String)) (new_g : IRGraph) : Prop where
  inputs : new_g.input_names = g.input_names.flatMap fun name => (g.clonesOf name).getD [name]
  reads : new_g.nodes.map IRNode.input_names = input_names
  nodes : List.Forall₂ (ClonedNode g) new_g.nodes g.nodes
  outputs : g.output_names.mapM (cloneOutput g.clonesOf) = some new_g.output_names

theorem Verified.cloneSharedInputs_eq (ids : NameSupply) : g.cloneSharedInputs ids = (do
    let input_names ← renameAll g.clonesOf (fun _ => 0) (g.nodes.map IRNode.input_names)
    let output_names ← g.output_names.mapM (cloneOutput g.clonesOf)
    let new_g ← create g.name (g.cloneNodes ids input_names) (g.cloneValues g.clonesOf)
      (g.input_names.flatMap fun name => (g.clonesOf name).getD [name]) output_names
    return (new_g, g.sharedClones)) := by
  obtain ⟨no_param_inputs, param_inputs, hno_param, hparam, hlookup⟩ := hg.exists_sharedRefs
  have hclones : ∀ name,
      ((countSharedRefs g no_param_inputs ++ countSharedRefs g param_inputs).lookup name).map
        (fun ref_count => (List.range ref_count).map (cloneName name)) = g.clonesOf name := by
    intro name
    rw [hlookup]
    unfold clonesOf
    split_ifs <;> rfl
  have hshared : (g.input_names.filterMap fun name =>
      (g.clonesOf name).map fun cl_names => (name, cl_names)) = g.sharedClones := rfl
  unfold cloneSharedInputs
  rw [hno_param, hparam]
  simp only [Option.bind_eq_bind, Option.bind_some, hclones, hshared, lookup_sharedClones]

theorem Verified.renameAll_of_clone (ids : NameSupply) {res : IRGraph × List (String × List String)}
    (h : g.cloneSharedInputs ids = some res) :
    (renameAll g.clonesOf (fun _ => 0) (g.nodes.map IRNode.input_names)).isSome := by
  rw [hg.cloneSharedInputs_eq] at h
  obtain ⟨input_names, hall, -⟩ := Option.bind_eq_some_iff.mp h
  exact Option.isSome_of_eq_some hall

theorem Verified.cloneValues_isSome {in_name : String}
    (h : in_name ∈ g.input_names.flatMap fun name => (g.clonesOf name).getD [name]) :
    ((g.cloneValues g.clonesOf).lookup in_name).isSome := by
  obtain ⟨name, hname, hin_name⟩ := List.mem_flatMap.mp h
  obtain ⟨value, hvalue, hvalue_name⟩ := hg.values name (mem_definedNames.mpr (Or.inl hname))
  obtain ⟨before, after, hsplit, -⟩ := List.lookup_eq_some_iff.mp hvalue
  have hmem : (name, value) ∈ g.values := by
    rw [hsplit]
    exact List.mem_append_right _ List.mem_cons_self
  rw [List.lookup_isSome_iff]
  cases hclones : g.clonesOf name with
  | none =>
    rw [hclones] at hin_name
    obtain rfl := List.mem_singleton.mp hin_name
    refine ⟨(in_name, value), List.mem_flatMap.mpr ⟨_, hmem, ?_⟩, beq_self_eq_true _⟩
    dsimp only
    rw [hvalue_name, hclones]
    exact List.mem_singleton_self _
  | some cl_names =>
    rw [hclones] at hin_name
    refine ⟨(in_name, { value with name := in_name }), List.mem_flatMap.mpr ⟨_, hmem, ?_⟩,
      beq_self_eq_true _⟩
    dsimp only
    rw [hvalue_name, hclones]
    exact List.mem_map_of_mem hin_name

/-- Clones are all that it takes. -/
theorem Verified.exists_cloned (ids : NameSupply) {input_names : List (List String)}
    (h : renameAll g.clonesOf (fun _ => 0) (g.nodes.map IRNode.input_names) = some input_names) :
    ∃ new_g, g.cloneSharedInputs ids = some (new_g, g.sharedClones) ∧
      Cloned g input_names new_g := by
  have hlen : g.nodes.length = input_names.length := by
    simpa using (renameAll_from h).length_eq.symm
  have hfirst : ∀ o ∈ g.output_names, (cloneOutput g.clonesOf o).isSome := by
    intro o _
    unfold cloneOutput
    cases ho : g.clonesOf o with
    | none => rfl
    | some cl_names =>
      have hpos := (clonesOf_eq_some ho).1.2
      rw [(clonesOf_eq_some ho).2]
      dsimp only
      rw [List.isSome_head?, Ne, List.map_eq_nil_iff, List.range_eq_nil]
      omega
  obtain ⟨output_names, houtputs⟩ := mapM_of_forall_some hfirst
  obtain ⟨is_replicable, hcreate⟩ := exists_create g.name (g.cloneNodes ids input_names)
    output_names fun in_name => hg.cloneValues_isSome
  refine ⟨⟨g.name, g.cloneNodes ids input_names, g.cloneValues g.clonesOf,
    g.input_names.flatMap fun name => (g.clonesOf name).getD [name], output_names,
    is_replicable⟩, ?_, rfl, ?_, ?_, houtputs⟩
  · rw [hg.cloneSharedInputs_eq, h]
    dsimp only [Option.bind_eq_bind, Option.bind_some]
    rw [houtputs]
    dsimp only [Option.bind_some]
    rw [hcreate]
    rfl
  · unfold cloneNodes
    exact List.ext_getElem (by simp [hlen]) (by simp)
  · obtain ⟨-, hreads⟩ := List.forall₂_iff_get.mp (renameAll_from h)
    refine List.forall₂_iff_get.mpr ⟨by simp [cloneNodes, hlen], fun i hi hi' => ?_⟩
    have hread := hreads i (hlen ▸ hi') (by simpa using hi')
    exact ⟨by simp [cloneNodes], by simpa [cloneNodes] using hread, by simp [cloneNodes]⟩

end Build

section Sound

variable {g} (hg : g.Verified) (hsafe : g.CloneSafe)

/-- The name that was cloned. -/
def original (g : IRGraph) (name : String) : String :=
  (g.input_names.find? fun input => name ∈ (g.clonesOf input).getD []).getD name

theorem clone_unique {name name' cl_name : String} {cl_names cl_names' : List String}
    (h : g.clonesOf name = some cl_names) (h' : g.clonesOf name' = some cl_names')
    (hmem : cl_name ∈ cl_names) (hmem' : cl_name ∈ cl_names') : name = name' := by
  obtain ⟨i, -, hi⟩ := (mem_clonesOf h).mp hmem
  obtain ⟨j, -, hj⟩ := (mem_clonesOf h').mp hmem'
  exact (cloneName_injective (hi.trans hj.symm)).1

theorem original_clone {name cl_name : String} {cl_names : List String}
    (h : g.clonesOf name = some cl_names) (hmem : cl_name ∈ cl_names) :
    g.original cl_name = name := by
  have hinput := (clonesOf_eq_some h).1.1
  unfold original
  cases hfind : g.input_names.find? fun input => cl_name ∈ (g.clonesOf input).getD [] with
  | none =>
    rw [List.find?_eq_none] at hfind
    have hnot := hfind name hinput
    rw [h] at hnot
    exact absurd (decide_eq_true hmem) hnot
  | some name' =>
    have hfound := List.find?_some hfind
    rw [decide_eq_true_iff] at hfound
    cases h' : g.clonesOf name' with
    | none =>
      rw [h'] at hfound
      exact absurd hfound List.not_mem_nil
    | some cl_names' =>
      rw [h'] at hfound
      exact (clone_unique h h' hmem hfound).symm

include hsafe

theorem CloneSafe.not_clone {name name' : String} {cl_names : List String}
    (hname : name ∈ g.definedNames) (hkept : ¬g.IsShared name)
    (h : g.clonesOf name' = some cl_names) : name ∉ cl_names := by
  intro hmem
  obtain ⟨i, hi, rfl⟩ := (mem_clonesOf h).mp hmem
  exact hkept (hsafe.fresh name' (clonesOf_eq_some h).1 i hi hname)

theorem CloneSafe.original_kept {name : String} (hname : name ∈ g.definedNames)
    (hkept : ¬g.IsShared name) : g.original name = name := by
  unfold original
  rw [List.find?_eq_none.mpr]
  · rfl
  · intro input _ hmem
    have hmem := of_decide_eq_true hmem
    cases h : g.clonesOf input with
    | none =>
      rw [h] at hmem
      exact absurd hmem List.not_mem_nil
    | some cl_names =>
      rw [h] at hmem
      exact hsafe.not_clone hname hkept h hmem

theorem CloneSafe.original_of_renamed {name' name : String} (hname : name ∈ g.definedNames)
    (h : RenamedFrom g.clonesOf name' name) : g.original name' = name := by
  cases h with
  | inl hkept =>
    rw [hkept.2]
    exact hsafe.original_kept hname (clonesOf_eq_none.mp hkept.1)
  | inr hclone =>
    obtain ⟨cl_names, h, hmem⟩ := hclone
    exact original_clone h hmem

variable {new_g : IRGraph} {input_names : List (List String)}
  (hcloned : Cloned g input_names new_g)

section Names

omit hsafe
include hcloned

theorem Cloned.writes_eq :
    new_g.nodes.flatMap IRNode.output_names = g.nodes.flatMap IRNode.output_names := by
  have hmap : new_g.nodes.map IRNode.output_names = g.nodes.map IRNode.output_names := by
    rw [← List.forall₂_eq_eq_eq, List.forall₂_map_left_iff, List.forall₂_map_right_iff]
    exact hcloned.nodes.imp fun _ _ h => h.writes
  rw [List.flatMap_def, List.flatMap_def, hmap]

theorem Cloned.clone_mem {name cl_name : String} {cl_names : List String}
    (h : g.clonesOf name = some cl_names) (hmem : cl_name ∈ cl_names) :
    cl_name ∈ new_g.input_names := by
  rw [hcloned.inputs]
  refine List.mem_flatMap.mpr ⟨name, (clonesOf_eq_some h).1.1, ?_⟩
  rw [h]
  exact hmem

theorem Cloned.kept_mem {name : String} (hname : name ∈ g.input_names) (hkept : ¬g.IsShared name) :
    name ∈ new_g.input_names := by
  rw [hcloned.inputs]
  refine List.mem_flatMap.mpr ⟨name, hname, ?_⟩
  rw [clonesOf_eq_none.mpr hkept]
  exact List.mem_singleton_self name

theorem Cloned.input_cases {name : String} (hname : name ∈ new_g.input_names) :
    (name ∈ g.input_names ∧ ¬g.IsShared name) ∨
      ∃ input cl_names, g.clonesOf input = some cl_names ∧ name ∈ cl_names := by
  rw [hcloned.inputs] at hname
  obtain ⟨input, hinput, hmem⟩ := List.mem_flatMap.mp hname
  cases h : g.clonesOf input with
  | none =>
    rw [h] at hmem
    obtain rfl := List.mem_singleton.mp hmem
    exact Or.inl ⟨hinput, clonesOf_eq_none.mp h⟩
  | some cl_names =>
    rw [h] at hmem
    exact Or.inr ⟨input, cl_names, h, hmem⟩

end Names

include hg hcloned

omit hsafe in
theorem Cloned.verifyNodeInputs : new_g.verifyNodeInputs = true := by
  rw [verifyNodeInputs_iff]
  apply (verifyNodeInputs_iff.mp hg.node_inputs).reread new_g.input_names
    (fun name => ¬g.IsShared name) _ (List.Subset.refl _) fun name => hcloned.kept_mem
  unfold instrs
  rw [List.forall₂_map_left_iff, List.forall₂_map_right_iff]
  apply hcloned.nodes.imp
  intro new_n n hn
  refine ⟨hn.writes, fun name hname => ?_⟩
  obtain ⟨name', hname', hfrom⟩ := exists_mem_of_forall₂ hn.reads hname
  cases hfrom with
  | inl hkept =>
    rw [hkept.2]
    exact Or.inr ⟨hname', clonesOf_eq_none.mp hkept.1⟩
  | inr hclone =>
    obtain ⟨cl_names, h, hmem⟩ := hclone
    exact Or.inl (hcloned.clone_mem h hmem)

theorem Cloned.verifyNoDuplicatedOutputs : new_g.verifyNoDuplicatedOutputs = true := by
  have hinputs := (List.nodup_append.mp hg.nodup).1
  apply decide_eq_true
  unfold definedNames
  rw [hcloned.writes_eq]
  refine List.Nodup.append ?_ (List.nodup_append.mp hg.nodup).2.1 ?_
  · rw [hcloned.inputs]
    refine List.nodup_flatMap.mpr ⟨fun name _ => ?_, ?_⟩
    · cases h : g.clonesOf name with
      | none => exact List.nodup_singleton name
      | some cl_names => exact nodup_clonesOf h
    · apply List.Pairwise.imp_of_mem _ hinputs
      intro name name' hname hname' hne cl_name hmem hmem'
      dsimp only at hmem hmem'
      cases h : g.clonesOf name with
      | none =>
        rw [h] at hmem
        obtain rfl := List.mem_singleton.mp hmem
        cases h' : g.clonesOf name' with
        | none =>
          rw [h'] at hmem'
          exact hne (List.mem_singleton.mp hmem')
        | some cl_names' =>
          rw [h'] at hmem'
          exact hsafe.not_clone (mem_definedNames.mpr (Or.inl hname)) (clonesOf_eq_none.mp h) h'
            hmem'
      | some cl_names =>
        rw [h] at hmem
        cases h' : g.clonesOf name' with
        | none =>
          rw [h'] at hmem'
          obtain rfl := List.mem_singleton.mp hmem'
          exact hsafe.not_clone (mem_definedNames.mpr (Or.inl hname')) (clonesOf_eq_none.mp h') h
            hmem
        | some cl_names' =>
          rw [h'] at hmem'
          exact hne (clone_unique h h' hmem hmem')
  · intro name hname hwritten
    obtain ⟨n, hn, hout⟩ := List.mem_flatMap.mp hwritten
    have hnot : name ∉ g.input_names := fun hin => hg.input_not_written hn hin hout
    rcases hcloned.input_cases hname with hkept | ⟨input, cl_names, h, hmem⟩
    · exact hnot hkept.1
    · exact hsafe.not_clone (mem_definedNames.mpr (Or.inr ⟨n, hn, hout⟩))
        (fun hshared => hnot hshared.1) h hmem

/-- The values of the original graph, under the new names. -/
theorem Cloned.evalValues {V : Type} {I : Interp String V} {vals new_vals : String → V}
    (hclones : ∀ name cl_names, g.clonesOf name = some cl_names → ∀ cl_name ∈ cl_names,
      new_vals cl_name = vals name)
    (hkept : ∀ name ∈ g.input_names, ¬g.IsShared name → new_vals name = vals name)
    {env : Env String V} (henv : g.evalValues I vals = some env) :
    ∃ new_env, new_g.evalValues I new_vals = some new_env ∧
      ∀ name ∈ new_g.definedNames, new_env name = env (g.original name) := by
  apply evalValues_eq (hcloned.verifyNodeInputs hg) (hcloned.verifyNoDuplicatedOutputs hg hsafe)
  · intro name hname
    rcases hcloned.input_cases hname with ⟨hinput, hnot⟩ | ⟨input, cl_names, h, hmem⟩
    · rw [hsafe.original_kept (mem_definedNames.mpr (Or.inl hinput)) hnot, hkept name hinput hnot]
      exact evalValues_input henv hinput
    · rw [original_clone h hmem, hclones input cl_names h name hmem]
      exact evalValues_input henv (clonesOf_eq_some h).1.1
  · intro new_n hnew_n
    obtain ⟨n, hn, hfrom⟩ := exists_mem_of_forall₂ hcloned.nodes hnew_n
    obtain ⟨args, hargs, hwrites⟩ := evalValues_holds henv n hn
    have hreads : n.input_names = new_n.input_names.map g.original := by
      have hboth := (List.forall₂_and_left _ _).mpr
        ⟨fun name hname => hg.read_bound hn hname, hfrom.reads.flip⟩
      rw [← List.forall₂_eq_eq_eq, List.forall₂_map_right_iff]
      exact hboth.imp fun name new_name h => (hsafe.original_of_renamed h.1 h.2).symm
    refine ⟨args, ?_, fun out hout => ?_⟩
    · have hread : n.input_names.mapM env = some args := hargs
      rw [hreads, List.mapM_map] at hread
      exact hread
    · have hout' : out ∈ n.output_names := hfrom.writes ▸ hout
      have hdefined := mem_definedNames.mpr (Or.inr ⟨n, hn, hout'⟩)
      have hnot : ¬g.IsShared out := fun hshared => hg.input_not_written hn hshared.1 hout'
      dsimp only
      rw [hsafe.original_kept hdefined hnot, hwrites out hout']
      unfold IRNode.instr
      rw [hfrom.name, hfrom.writes]

/-- The outputs are what the outputs of the original graph were. -/
theorem Cloned.outputs_eq {V : Type} {env new_env : Env String V}
    (hsame : ∀ name ∈ new_g.definedNames, new_env name = env (g.original name)) :
    new_g.output_names.map new_env = g.output_names.map env := by
  have hout : ∀ out ∈ g.output_names, ∀ new_out, cloneOutput g.clonesOf out = some new_out →
      new_env new_out = env out := by
    intro out hout new_out hnew_out
    unfold cloneOutput at hnew_out
    cases h : g.clonesOf out with
    | none =>
      rw [h] at hnew_out
      obtain rfl := Option.some.inj hnew_out
      have hnot := clonesOf_eq_none.mp h
      have hdefined := hg.outputs hout
      rw [hsame out, hsafe.original_kept hdefined hnot]
      rcases mem_definedNames.mp hdefined with hinput | ⟨n, hn, hwrite⟩
      · exact mem_definedNames.mpr (Or.inl (hcloned.kept_mem hinput hnot))
      · unfold definedNames
        rw [hcloned.writes_eq]
        exact List.mem_append_right _ (List.mem_flatMap.mpr ⟨n, hn, hwrite⟩)
    | some cl_names =>
      rw [h] at hnew_out
      have hmem := List.mem_of_mem_head? hnew_out
      rw [hsame new_out (mem_definedNames.mpr (Or.inl (hcloned.clone_mem h hmem))),
        original_clone h hmem]
  have houtputs := mapM_eq_some_iff.mp hcloned.outputs
  rw [← List.forall₂_eq_eq_eq, List.forall₂_map_left_iff, List.forall₂_map_right_iff] at houtputs
  have hboth := (List.forall₂_and_left _ _).mpr ⟨hout, houtputs⟩
  rw [← List.forall₂_eq_eq_eq, List.forall₂_map_left_iff, List.forall₂_map_right_iff]
  exact (hboth.imp fun out new_out h => (h.1 new_out h.2 : _ = _)).flip

/-- The clones of an input are used once each. -/
theorem Cloned.once (hall : renameAll g.clonesOf (fun _ => 0) (g.nodes.map IRNode.input_names) =
    some input_names) {name cl_name : String} {cl_names : List String}
    (h : g.clonesOf name = some cl_names) (hmem : cl_name ∈ cl_names) :
    (new_g.nodes.flatMap IRNode.input_names).count cl_name = 1 := by
  have hmap := renameAll_eq g.clonesOf (fun _ => 0) (g.nodes.map IRNode.input_names)
  rw [hall, Option.map_some] at hmap
  obtain ⟨⟨flat, idx⟩, hrename, hflat⟩ := Option.map_eq_some_iff.mp hmap.symm
  dsimp only at hflat
  have hapart : Apart g.clonesOf (g.nodes.map IRNode.input_names).flatten := by
    refine ⟨?_, ?_⟩
    · intro name cl_names name' cl_names' h h' hne cl_name hmem hmem'
      exact hne (clone_unique h h' hmem hmem')
    · intro name hname hnone name' cl_names h
      rw [← List.flatMap_def] at hname
      obtain ⟨n, hn, hread⟩ := List.mem_flatMap.mp hname
      exact hsafe.not_clone (hg.read_bound hn hread) (clonesOf_eq_none.mp hnone) h
  have hfilter := rename_filter hapart hrename h
  have hcount : ((g.nodes.map IRNode.input_names).flatten).count name = cl_names.length := by
    obtain ⟨hshared, rfl⟩ := clonesOf_eq_some h
    rw [List.length_map, List.length_range, ← List.flatMap_def]
    exact le_antisymm ((count_le_countP_iff name g.nodes).mpr (hsafe.once name hshared))
      (countP_le_count name g.nodes)
  rw [hcount, List.drop_zero, List.take_length] at hfilter
  rw [List.flatMap_def, hcloned.reads, ← hflat]
  have hcl : cl_names.count cl_name = 1 := List.count_eq_one_of_mem (nodup_clonesOf h) hmem
  rw [← hfilter, List.count_filter (by simpa using hmem)] at hcl
  exact hcl

end Sound

section Main

variable {g}

theorem mem_sharedClones {it : String × List String} :
    it ∈ g.sharedClones ↔ g.clonesOf it.1 = some it.2 := by
  unfold sharedClones
  rw [List.mem_filterMap]
  constructor
  · intro h
    obtain ⟨name, -, hit⟩ := h
    obtain ⟨cl_names, hclones, rfl⟩ := Option.map_eq_some_iff.mp hit
    exact hclones
  · intro h
    exact ⟨it.1, (clonesOf_eq_some h).1.1, by rw [h]; rfl⟩

theorem mem_map_sharedClones {name : String} :
    name ∈ g.sharedClones.map Prod.fst ↔ g.IsShared name := by
  rw [List.mem_map]
  constructor
  · intro h
    obtain ⟨it, hit, rfl⟩ := h
    exact (clonesOf_eq_some (mem_sharedClones.mp hit)).1
  · intro h
    exact ⟨(name, _), mem_sharedClones.mpr (clonesOf_of_shared h), rfl⟩

/-- The names of the inputs with their clones. -/
def clonedInputNames (g : IRGraph) : List String :=
  g.input_names.flatMap fun name => (g.clonesOf name).getD [name]

theorem Verified.exists_clonesSound (hg : g.Verified) (hsafe : g.CloneSafe) (ids : NameSupply) :
    ∃ new_g, g.cloneSharedInputs ids = some (new_g, g.sharedClones) ∧
      g.ClonesSound new_g g.sharedClones ∧ g.clonedInputNames.Nodup := by
  obtain ⟨input_names, hall⟩ :=
    Option.isSome_iff_exists.mp (renameAll_isSome_iff.mpr hsafe.once)
  obtain ⟨new_g, hclone, hcloned⟩ := hg.exists_cloned ids hall
  refine ⟨new_g, hclone, ⟨?_, ?_⟩, ?_⟩
  · intro it hit cl_name hmem
    exact hcloned.once hg hsafe hall (mem_sharedClones.mp hit) hmem
  · intro V I vals new_vals hclones hkept
    obtain ⟨env, henv⟩ := hg.exists_evalValues I vals
    obtain ⟨new_env, hnew_env, hsame⟩ := hcloned.evalValues hg hsafe
      (fun name cl_names h => hclones (name, cl_names) (mem_sharedClones.mpr h))
      (fun name hname hnot => hkept name hname fun hmem => hnot (mem_map_sharedClones.mp hmem))
      henv
    exact eval_congr henv hnew_env (hcloned.outputs_eq hg hsafe hsame)
  · have hnodup : new_g.definedNames.Nodup :=
      of_decide_eq_true (hcloned.verifyNoDuplicatedOutputs hg hsafe)
    have hinputs := (List.nodup_append.mp hnodup).1
    rw [hcloned.inputs] at hinputs
    exact hinputs

theorem Verified.clonesSound (hg : g.Verified) (hsafe : g.CloneSafe) (ids : NameSupply) :
    ∃ new_g cl_names, g.cloneSharedInputs ids = some (new_g, cl_names) ∧
      g.ClonesSound new_g cl_names := by
  obtain ⟨new_g, hclone, hsound, -⟩ := hg.exists_clonesSound hsafe ids
  exact ⟨new_g, g.sharedClones, hclone, hsound⟩

theorem Verified.exists_eval {V : Type} (hg : g.Verified) (I : Interp String V)
    (vals : String → V) : ∃ outs, g.eval I vals = some outs := by
  obtain ⟨env, henv⟩ := hg.exists_evalValues I vals
  obtain ⟨outs, houts⟩ := mapM_of_forall_some (f := env) (l := g.output_names)
    fun out hout => (evalValues_isSome_iff henv out).mpr (hg.outputs hout)
  refine ⟨outs, ?_⟩
  unfold eval
  rw [henv]
  exact houts

/-- When some clone has the name of another value, that name is bound twice. -/
theorem Verified.cloneSafe (hg : g.Verified) (ids : NameSupply) {new_g : IRGraph}
    {cl_names : List (String × List String)}
    (hclone : g.cloneSharedInputs ids = some (new_g, cl_names))
    (hsound : g.ClonesSound new_g cl_names) : g.CloneSafe := by
  have hall := hg.renameAll_of_clone ids hclone
  obtain ⟨input_names, hsome⟩ := Option.isSome_iff_exists.mp hall
  obtain ⟨new_g', hclone', hcloned⟩ := hg.exists_cloned ids hsome
  obtain ⟨rfl, rfl⟩ := Prod.mk.inj (Option.some.inj (hclone.symm.trans hclone'))
  refine ⟨renameAll_isSome_iff.mp hall, fun name hshared i hi hdefined => ?_⟩
  by_contra hnot
  obtain ⟨outs, houts⟩ := hg.exists_eval (fun _ _ _ => ()) fun _ => ()
  have hmeaning := hsound.meaning Unit (fun _ _ _ => ()) (fun _ => ()) (fun _ => ())
    (fun _ _ _ _ => rfl) fun _ _ _ => rfl
  rw [houts] at hmeaning
  obtain ⟨env, henv, -⟩ := Option.bind_eq_some_iff.mp hmeaning
  have hnodup : new_g.definedNames.Nodup := of_decide_eq_true (evalValues_run henv).1
  have hclones := clonesOf_of_shared hshared
  have hmem := (mem_clonesOf hclones).mpr ⟨i, hi, rfl⟩
  rcases mem_definedNames.mp hdefined with hinput | ⟨n, hn, hout⟩
  · have hinputs := (List.nodup_append.mp hnodup).1
    rw [hcloned.inputs] at hinputs
    have hne : name ≠ cloneName name i := fun heq => hnot (heq ▸ hshared)
    have hdisjoint := (List.nodup_flatMap.mp hinputs).2
    have : Std.Symm (Function.onFun List.Disjoint
        fun name => (g.clonesOf name).getD [name]) := ⟨fun _ _ h => h.symm⟩
    have hclone_mem : cloneName name i ∈ (g.clonesOf name).getD [name] := by
      rw [hclones]
      exact hmem
    have hkept_mem : cloneName name i ∈
        (g.clonesOf (cloneName name i)).getD [cloneName name i] := by
      rw [clonesOf_eq_none.mpr hnot]
      exact List.mem_singleton_self _
    exact hdisjoint.forall hshared.1 hinput hne hclone_mem hkept_mem
  · apply List.disjoint_of_nodup_append hnodup (hcloned.clone_mem hclones hmem)
    rw [hcloned.writes_eq]
    exact List.mem_flatMap.mpr ⟨n, hn, hout⟩

theorem Verified.sharedInputs_isSome_iff (hg : g.Verified) (ids : NameSupply) :
    (sharedInputs g).isSome ↔ (g.cloneSharedInputs ids).isSome := by
  have hclone : (g.cloneSharedInputs ids).isSome ↔
      (renameAll g.clonesOf (fun _ => 0) (g.nodes.map IRNode.input_names)).isSome := by
    constructor
    · intro h
      obtain ⟨res, hres⟩ := Option.isSome_iff_exists.mp h
      exact hg.renameAll_of_clone ids hres
    · intro h
      obtain ⟨input_names, hall⟩ := Option.isSome_iff_exists.mp h
      obtain ⟨new_g, hres, -⟩ := hg.exists_cloned ids hall
      exact Option.isSome_of_eq_some hres
  rw [hclone, renameAll_isSome_iff]
  unfold sharedInputs
  dsimp only
  by_cases henough : ∀ name ∈ g.input_names.filter fun name => countValueRefCount g name > 1,
      (g.nodes.flatMap IRNode.input_names).count name ≤ countValueRefCount g name
  · rw [guard, if_pos henough]
    refine iff_of_true rfl fun name hshared => ?_
    apply (count_le_countP_iff name g.nodes).mp
    exact henough name (List.mem_filter.mpr ⟨hshared.1, decide_eq_true hshared.2⟩)
  · rw [guard, if_neg henough]
    refine iff_of_false (by simp) fun honce => henough fun name hname => ?_
    obtain ⟨hinput, hcount⟩ := List.mem_filter.mp hname
    exact (count_le_countP_iff name g.nodes).mpr (honce name ⟨hinput, of_decide_eq_true hcount⟩)

/-- Cloning is sound exactly when no node reads a shared input twice and the clones have names of
their own. -/
theorem Verified.clonesSound_iff (hg : g.Verified) (ids : NameSupply) :
    (∃ new_g cl_names, g.cloneSharedInputs ids = some (new_g, cl_names) ∧
      g.ClonesSound new_g cl_names) ↔ g.CloneSafe := by
  constructor
  · intro h
    obtain ⟨new_g, cl_names, hclone, hsound⟩ := h
    exact hg.cloneSafe ids hclone hsound
  · exact fun hsafe => hg.clonesSound hsafe ids

end Main

/-- The square of the input is added to its positive part. -/
def squareGraph : IRGraph where
  name := "square"
  nodes := [⟨"aten::mul", ["x", "x"], ["a"], "n0", false, true⟩,
    ⟨"aten::relu", ["x"], ["b"], "n1", false, true⟩,
    ⟨"aten::add", ["a", "b"], ["y"], "n2", false, true⟩]
  values := vectorValues ["x", "a", "b", "y"]
  input_names := ["x"]
  output_names := ["y"]

theorem squareGraph_verified : squareGraph.Verified :=
  verified_of_vectors rfl (by decide) (by decide) (by decide) (by decide) (by decide)

theorem replicate_injective :
    Function.Injective fun n => String.ofList (List.replicate n 'x') := by
  intro i j h
  have hlength := congrArg String.length h
  simpa using hlength

/-- Ids that are told apart by their lengths. -/
def nodeIds : NameSupply where
  random n := String.ofList (List.replicate n 'x')
  injective := replicate_injective

/-- Two clones, but three occurrences. -/
theorem not_clonesSound : ¬∀ (g : IRGraph) (ids : NameSupply), g.Verified →
    ∃ new_g cl_names, g.cloneSharedInputs ids = some (new_g, cl_names) ∧
      g.ClonesSound new_g cl_names := by
  intro h
  obtain ⟨new_g, cl_names, hclone, -⟩ := h squareGraph nodeIds squareGraph_verified
  have hall := squareGraph_verified.renameAll_of_clone nodeIds hclone
  have honce := renameAll_isSome_iff.mp hall "x" (by decide) _ List.mem_cons_self
  revert honce
  decide

/-- The input is read by two nodes, and returned. -/
def residualGraph : IRGraph where
  name := "residual"
  nodes := [⟨"aten::relu", ["x"], ["a"], "n0", false, true⟩,
    ⟨"aten::add", ["a", "x"], ["y"], "n1", false, true⟩]
  values := vectorValues ["x", "a", "y"]
  input_names := ["x"]
  output_names := ["y", "x"]

theorem clonesSound_residual :
    ∃ new_g cl_names, residualGraph.cloneSharedInputs nodeIds = some (new_g, cl_names) ∧
      residualGraph.ClonesSound new_g cl_names := by
  have hg : residualGraph.Verified :=
    verified_of_vectors rfl (by decide) (by decide) (by decide) (by decide) (by decide)
  apply (Verified.clonesSound_iff hg nodeIds).mpr
  refine ⟨fun name hshared => ?_, fun name hshared i hi => ?_⟩
  · have hname : name = "x" := List.mem_singleton.mp hshared.1
    subst hname
    decide
  · have hname : name = "x" := List.mem_singleton.mp hshared.1
    subst hname
    have hall : ∀ i < countValueRefCount residualGraph "x",
        cloneName "x" i ∈ residualGraph.definedNames →
          residualGraph.IsShared (cloneName "x" i) := by
      decide
    exact hall i hi

end Rannc.IRGraph
