import Rannc.Comp.Routes
import Rannc.Graph.Evaluation
import Rannc.Lib.Faults
import Rannc.Lib.Worklist

/-!
# Profiling of graphs

The profiler goes over its graphs again and again and runs those whose inputs are there by then, as
long as there are graphs that have not run. Passes in which nothing changes are counted, and when
there are too many of them an exception is thrown. So the loop always ends, and it throws just where
a graph waits for a value that no graph can provide in time.
-/
namespace Rannc

/-- What runs a graph and measures it, and the values of the parameters. -/
structure ProfilerDriver (V : Type) where
  graph_params : String → Option V
  toIRType : V → IRType
  /-- The value of an output, from those of the inputs. -/
  forward : String → IRGraph → List (String × V) → String → V
  measure : String → IRGraph → List (String × V) → ℕ → Bool → GraphProfile

/-- What the loop works on. The graphs that ran are also listed, in their order. -/
structure ComputeState (V : Type) where
  values : Dict IValueLocation V
  avail_locs : Finset IValueLocation
  graphs_done : Finset String
  value_types : Dict String IRType
  node_profiles : Dict String GraphProfile
  prev_done : ℕ
  prev_locs : ℕ
  infinite : ℕ
  ran : List (String × IRGraph)

def IRValue.isFunction (v : IRValue) : Bool :=
  match v.type with
  | .function _ => true
  | _ => false

namespace GraphProfiler

def notUpdated : String :=
  "The variable(s) was not updated in while loop. It (may) causes infinite-loops. " ++
    "This may be BUG, please report to developper."

def getValue (g : IRGraph) (name : String) : Except String IRValue :=
  orThrow "_Map_base::at" (g.getValue name)

/-- The inputs that are neither parameters nor functions. -/
def inputNames (g : IRGraph) : Option (List String) := do
  let input_names_org ← g.getNonParamInputNames
  input_names_org.filterM fun in_name => (g.getValue in_name).map fun v => !v.isFunction

def isGraphReady (graph_input_names : List String) (avail_locs : Finset IValueLocation) : Bool :=
  graph_input_names.all fun in_name => (⟨in_name, []⟩ : IValueLocation) ∈ avail_locs

/-- The type of an input in the graph that is run. -/
def setInputType (g : IRGraph) (value_types : Dict String IRType)
    (values : List (String × IRValue)) (in_name : String) :
    Except String (List (String × IRValue)) := do
  let v ← getValue g in_name
  if v.is_param || v.isFunction then return values
  else
    let type ← orThrow ("No type information in profiling results: " ++ v.name)
      (value_types.get v.name)
    return values.map fun it => if it.1 = in_name then (in_name, { v with type := type }) else it

def setInputTypes (g : IRGraph) (value_types : Dict String IRType) : Except String IRGraph := do
  let values ← g.input_names.foldlM (setInputType g value_types) g.values
  orThrow "_Map_base::at" (IRGraph.create g.name g.nodes values g.input_names g.output_names)

section Compute

variable {V : Type} (drv : ProfilerDriver V)

def getGraphParams (graph : IRGraph) : Except String (List (String × V)) :=
  (graph.values.filter fun it => it.2.is_param).mapM fun it => do
    let param ← orThrow "contains(graph_params_, irp.getName())" (drv.graph_params it.2.name)
    return (it.2.name, param)

variable (graphs : List (String × IRGraph)) (iteration : ℕ) (checkpointing : Bool)

def setTypes (value_types : Dict String IRType) (vals : List (String × V)) : Dict String IRType :=
  vals.foldl (fun value_types it => value_types.set it.1 (drv.toIRType it.2)) value_types

/-- Run a graph that is ready. Without iterations there is no time to read. -/
def runGraph (st : ComputeState V) (id : String) (untyped_subgraph : IRGraph)
    (input_names : List String) : Except String (ComputeState V) := do
  let graph_inputs ← input_names.mapM fun in_name => do
    let value ← orThrow "contains(values, in_name)" (st.values.get ⟨in_name, []⟩)
    return (in_name, value)
  let value_types := setTypes drv st.value_types graph_inputs
  let params ← getGraphParams drv untyped_subgraph
  let value_types := setTypes drv value_types params
  let subgraph ← setInputTypes untyped_subgraph value_types
  let _ ← getGraphParams drv subgraph
  if iteration = 0 then .error ("No record found for task: fwd_time_" ++ id)
  else
    let driver_out := subgraph.output_names.map fun out =>
      (out, drv.forward id subgraph graph_inputs out)
    let prof := drv.measure id subgraph graph_inputs iteration checkpointing
    return { st with
      values := driver_out.foldl (fun values it => values.set ⟨it.1, []⟩ it.2) st.values
      avail_locs := st.avail_locs ∪ (driver_out.map fun it => ⟨it.1, []⟩).toFinset
      graphs_done := insert id st.graphs_done
      value_types := setTypes drv value_types driver_out
      node_profiles := st.node_profiles.set id prof
      ran := st.ran ++ [(id, untyped_subgraph)] }

/-- One graph of a pass. -/
def visit (st : ComputeState V) (it : String × IRGraph) : Except String (ComputeState V) := do
  let (id, untyped_subgraph) := it
  if id ∈ st.graphs_done then return st
  else
    let input_names ← orThrow "_Map_base::at" (inputNames untyped_subgraph)
    if isGraphReady input_names st.avail_locs then
      runGraph drv iteration checkpointing st id untyped_subgraph input_names
    else return st

/-- Compare the sizes after a pass with those before it. -/
def checkUpdated (st : ComputeState V) : Except String (ComputeState V) := do
  let unchanged := st.graphs_done.card = st.prev_done ∧ st.avail_locs.card = st.prev_locs
  if unchanged ∧ st.infinite > graphs.length + 1 then .error notUpdated
  else return { st with
    infinite := if unchanged then st.infinite + 1 else st.infinite
    prev_done := st.graphs_done.card
    prev_locs := st.avail_locs.card }

/-- The loop, with a bound on its passes. -/
def computeLoop : ℕ → ComputeState V → Option (Except String (ComputeState V))
  | 0, _ => none
  | fuel + 1, st =>
    if st.graphs_done.card < graphs.length then
      match graphs.foldlM (visit drv iteration checkpointing) st >>= checkUpdated graphs with
      | .error e => some (.error e)
      | .ok st => computeLoop fuel st
    else some (.ok st)

def startState (values : Dict IValueLocation V) : ComputeState V :=
  ⟨values, values.keys.toFinset, ∅, Dict.empty, Dict.empty, 0, 0, 0, []⟩

def compute (fuel : ℕ) (values : Dict IValueLocation V) :
    Option (Except String (ComputeState V)) :=
  computeLoop drv graphs iteration checkpointing fuel (startState values)

end Compute

/-- The inputs of a graph are values under their names, and its parameters are there. -/
structure Profilable {V : Type} (drv : ProfilerDriver V) (g : IRGraph) : Prop where
  inputs_known : ∀ in_name ∈ g.input_names, ∃ v, g.getValue in_name = some v ∧ v.name = in_name
  params_known : ∀ it ∈ g.values, it.2.is_param → (drv.graph_params it.2.name).isSome

/-- What a graph needs. -/
def needs (it : String × IRGraph) : List IValueLocation :=
  ((inputNames it.2).getD []).map fun in_name => ⟨in_name, []⟩

/-- What a graph gives. -/
def gives (it : String × IRGraph) : List IValueLocation :=
  it.2.output_names.map fun out => ⟨out, []⟩

section Run

variable {V : Type} {drv : ProfilerDriver V} {iteration : ℕ} {checkpointing : Bool}
  {g : IRGraph} {names : List String}

theorem inputNames_eq (h : Profilable drv g) : ∃ names, inputNames g = some names ∧
    ∀ in_name, in_name ∈ names ↔ in_name ∈ g.input_names ∧ ∃ v, g.getValue in_name = some v ∧
      (v.is_param || v.isFunction) = false := by
  have hvalue : ∀ in_name ∈ g.input_names, ∀ p : IRValue → Bool,
      ((g.getValue in_name).map p) = some ((g.getValue in_name).any p) := by
    intro in_name hin p
    obtain ⟨v, hv, -⟩ := h.inputs_known in_name hin
    rw [hv]
    rfl
  have horg := filterM_eq_filter (l := g.input_names) fun in_name hin =>
    hvalue in_name hin fun v => !v.is_param
  have hnames := filterM_eq_filter (l := g.input_names.filter fun in_name =>
    (g.getValue in_name).any fun v => !v.is_param) fun in_name hin =>
      hvalue in_name (List.mem_of_mem_filter hin) fun v => !v.isFunction
  have hres : inputNames g = some ((g.input_names.filter fun in_name =>
      (g.getValue in_name).any fun v => !v.is_param).filter fun in_name =>
        (g.getValue in_name).any fun v => !v.isFunction) := by
    rw [inputNames, IRGraph.getNonParamInputNames, horg]
    exact hnames
  refine ⟨_, hres, fun in_name => ?_⟩
  rw [List.mem_filter, List.mem_filter, and_assoc]
  refine and_congr_right fun hin => ?_
  obtain ⟨v, hv, -⟩ := h.inputs_known in_name hin
  simp [hv]

theorem setTypes_isSome {value_types : Dict String IRType} {vals : List (String × V)}
    {name : String} : ((setTypes drv value_types vals).get name).isSome ↔
      (value_types.get name).isSome ∨ name ∈ vals.map Prod.fst := by
  unfold setTypes
  induction vals generalizing value_types with
  | nil => simp
  | cons it vals ih =>
    rw [List.foldl_cons, ih, Dict.get_set, List.map_cons, List.mem_cons]
    split_ifs with hname
    · simp [hname]
    · simp [hname]

theorem getGraphParams_meets
    (h : ∀ it ∈ g.values, it.2.is_param → (drv.graph_params it.2.name).isSome) :
    Meets (fun _ => False) (getGraphParams drv g) fun _ => True := by
  refine Meets.mapM fun it hit => ?_
  obtain ⟨hmem, hparam⟩ := List.mem_filter.mp hit
  obtain ⟨param, hget⟩ := Option.isSome_iff_exists.mp (h it hmem hparam)
  rw [hget]
  exact Meets.pure trivial

/-- The types of the inputs are known, so the graph can be built with them. -/
theorem setInputTypes_meets (h : Profilable drv g) (hnames : inputNames g = some names)
    {value_types : Dict String IRType}
    (htypes : ∀ in_name ∈ names, (value_types.get in_name).isSome) :
    Meets (fun _ => False) (setInputTypes g value_types) fun g' =>
      g'.output_names = g.output_names ∧
        ∀ it ∈ g'.values, it.2.is_param → (drv.graph_params it.2.name).isSome := by
  have hturn : Meets (fun _ => False) (g.input_names.foldlM (setInputType g value_types) g.values)
      fun values => (∀ it ∈ values, it.2.is_param → (drv.graph_params it.2.name).isSome) ∧
        ∀ in_name ∈ g.input_names, (values.lookup in_name).isSome := by
    apply Meets.foldlM
    · rintro values in_name hin ⟨hparams, hlookup⟩
      obtain ⟨v, hv, hvname⟩ := h.inputs_known in_name hin
      unfold setInputType getValue
      rw [hv]
      show Meets _ (if (v.is_param || v.isFunction) = true then _ else _) _
      split_ifs with hkind
      · exact ⟨hparams, hlookup⟩
      · have hkind' : (v.is_param || v.isFunction) = false := by simpa using hkind
        obtain ⟨names', hnames', hmem⟩ := inputNames_eq h
        obtain rfl := Option.some.inj (hnames.symm.trans hnames')
        obtain ⟨type, htype⟩ := Option.isSome_iff_exists.mp
          (htypes in_name ((hmem in_name).mpr ⟨hin, v, hv, hkind'⟩))
        rw [hvname, htype]
        refine ⟨fun it hit hparam => ?_, fun name hname => ?_⟩
        · obtain ⟨it', hit', rfl⟩ := List.mem_map.mp hit
          split_ifs at hparam with hkey
          · simp_all
          · rw [if_neg hkey]
            exact hparams it' hit' hparam
        · rw [Dict.lookup_map_set]
          split_ifs
          · rfl
          · exact hlookup name hname
    · exact ⟨h.params_known, fun in_name hin => by
        obtain ⟨v, hv, -⟩ := h.inputs_known in_name hin
        exact Option.isSome_iff_exists.mpr ⟨v, hv⟩⟩
  unfold setInputTypes
  apply hturn.bind
  rintro values ⟨hparams, hlookup⟩
  obtain ⟨is_replicable, hcreate⟩ :=
    IRGraph.exists_create g.name g.nodes g.output_names hlookup
  rw [hcreate]
  exact ⟨rfl, hparams⟩

theorem isSome_foldl_set {values : Dict IValueLocation V} {driver_out : List (String × V)}
    {loc : IValueLocation} :
    ((driver_out.foldl (fun values it => values.set ⟨it.1, []⟩ it.2) values).get loc).isSome ↔
      (values.get loc).isSome ∨ loc ∈ driver_out.map fun it => (⟨it.1, []⟩ : IValueLocation) := by
  induction driver_out generalizing values with
  | nil => simp
  | cons it driver_out ih =>
    rw [List.foldl_cons, ih, Dict.get_set, List.map_cons, List.mem_cons]
    split_ifs with hloc
    · simp [hloc]
    · simp [hloc]

theorem map_fst_of_forall₂ {l : List String} {l' : List (String × V)}
    (h : List.Forall₂ (fun name it => it.1 = name) l l') : l'.map Prod.fst = l := by
  induction h with
  | nil => rfl
  | cons hab _ ih => rw [List.map_cons, ih, hab]

/-- What running a graph changes. -/
structure RunStep (st : ComputeState V) (it : String × IRGraph) (st' : ComputeState V) : Prop where
  ran : st'.ran = st.ran ++ [it]
  graphs_done : st'.graphs_done = insert it.1 st.graphs_done
  avail_locs : ∀ loc, loc ∈ st'.avail_locs ↔ loc ∈ st.avail_locs ∨ loc ∈ gives it
  values : ∀ loc, (st'.values.get loc).isSome ↔ (st.values.get loc).isSome ∨ loc ∈ gives it
  prev_done : st'.prev_done = st.prev_done
  prev_locs : st'.prev_locs = st.prev_locs
  infinite : st'.infinite = st.infinite

/-- A graph whose inputs have values runs. -/
theorem runGraph_meets (h : Profilable drv g) (hiteration : 0 < iteration)
    (hnames : inputNames g = some names) (st : ComputeState V) (id : String)
    (hvalues : ∀ in_name ∈ names, (st.values.get ⟨in_name, []⟩).isSome) :
    Meets (fun _ => False) (runGraph drv iteration checkpointing st id g names)
      (RunStep st (id, g)) := by
  unfold runGraph
  have hinputs := Meets.mapM_forall₂ (E := fun _ : String => False) (l := names)
    (f := fun in_name => do
      let value ← orThrow "contains(values, in_name)" (st.values.get ⟨in_name, []⟩)
      return (in_name, value)) (Q := fun in_name it => it.1 = in_name) (by
    intro in_name hin
    obtain ⟨value, hvalue⟩ := Option.isSome_iff_exists.mp (hvalues in_name hin)
    rw [hvalue]
    exact Meets.pure rfl)
  apply hinputs.bind
  intro graph_inputs hkeys
  have hkeys' : graph_inputs.map Prod.fst = names := map_fst_of_forall₂ hkeys
  apply (getGraphParams_meets h.params_known).bind
  intro params _
  apply (setInputTypes_meets h hnames fun in_name hin => ?_).bind
  · rintro subgraph ⟨houtputs, hparams⟩
    apply (getGraphParams_meets hparams).bind
    intro _ _
    rw [if_neg hiteration.ne']
    have hgives : (subgraph.output_names.map fun out => (out, drv.forward id subgraph graph_inputs
        out)).map (fun it => (⟨it.1, []⟩ : IValueLocation)) = gives (id, g) := by
      rw [List.map_map, houtputs]
      rfl
    refine Meets.pure ⟨rfl, rfl, fun loc => ?_, fun loc => ?_, rfl, rfl, rfl⟩
    · dsimp only
      rw [hgives, Finset.mem_union, List.mem_toFinset]
    · dsimp only
      rw [isSome_foldl_set, hgives]
  · rw [setTypes_isSome, setTypes_isSome, hkeys']
    exact Or.inl (Or.inr hin)

end Run

/-- The graphs under their ids, all of which can be profiled. -/
structure ProfGraphs {V : Type} (drv : ProfilerDriver V) where
  graphs : List (String × IRGraph)
  nodup : (graphs.map Prod.fst).Nodup
  profilable : ∀ it ∈ graphs, Profilable drv it.2

section Pass

open Worklist

variable {V : Type} {drv : ProfilerDriver V} (gs : ProfGraphs drv) (values : Dict IValueLocation V)

/-- The values are there from the start. -/
def Initial (loc : IValueLocation) : Prop := loc ∈ values.keys

/-- What holds between the runs of graphs. -/
structure Progress (st : ComputeState V) : Prop where
  sub : st.ran ⊆ gs.graphs
  done : st.graphs_done = (st.ran.map Prod.fst).toFinset
  nodup : (st.ran.map Prod.fst).Nodup
  avail : ∀ loc, loc ∈ st.avail_locs ↔ After gives (Initial values) st.ran loc
  known : ∀ loc ∈ st.avail_locs, (st.values.get loc).isSome
  order : InOrder needs gives (Initial values) st.ran

variable {gs values} {iteration : ℕ} {checkpointing : Bool} {st : ComputeState V}

theorem Progress.card (h : Progress gs values st) : st.graphs_done.card = st.ran.length := by
  rw [h.done, List.toFinset_card_of_nodup h.nodup, List.length_map]

theorem Progress.mem_done (h : Progress gs values st) {it : String × IRGraph}
    (hit : it ∈ gs.graphs) : it.1 ∈ st.graphs_done ↔ it ∈ st.ran := by
  rw [h.done, List.mem_toFinset]
  constructor
  · intro hid
    obtain ⟨it', hit', heq⟩ := List.mem_map.mp hid
    rwa [← List.inj_on_of_nodup_map gs.nodup (h.sub hit') hit heq]
  · exact List.mem_map_of_mem

theorem progress_start : Progress gs values (startState values) where
  sub := List.nil_subset _
  done := rfl
  nodup := List.nodup_nil
  avail loc := by
    rw [startState, List.mem_toFinset]
    simp [After, Initial]
  known loc hloc := by
    rw [startState, List.mem_toFinset] at hloc
    exact Dict.mem_keys_iff.mp hloc
  order := inOrder_nil

/-- A graph that is visited runs, or it has run, or it is not ready. -/
theorem visit_meets (hiteration : 0 < iteration) (h : Progress gs values st)
    {it : String × IRGraph} (hit : it ∈ gs.graphs) :
    Meets (fun _ => False) (visit drv iteration checkpointing st it) fun st' =>
      Progress gs values st' ∧
        (RunStep st it st' ∨ st' = st ∧
          ((∀ loc ∈ needs it, After gives (Initial values) st.ran loc) → it ∈ st.ran)) := by
  obtain ⟨id, g⟩ := it
  have hprof := gs.profilable _ hit
  obtain ⟨names, hnames, -⟩ := inputNames_eq hprof
  have hneeds : needs (id, g) = names.map fun in_name => ⟨in_name, []⟩ := by
    rw [needs, hnames]
    rfl
  unfold visit
  dsimp only
  split_ifs with hdone
  · exact ⟨h, Or.inr ⟨rfl, fun _ => (h.mem_done hit).mp hdone⟩⟩
  rw [hnames]
  show Meets _ (if isGraphReady names st.avail_locs = true then _ else _) _
  have hready : isGraphReady names st.avail_locs = true ↔
      ∀ loc ∈ needs (id, g), After gives (Initial values) st.ran loc := by
    rw [hneeds, isGraphReady, List.all_eq_true, List.forall_mem_map]
    exact forall₂_congr fun in_name _ => by rw [decide_eq_true_iff, h.avail]
  split_ifs with hrun
  · have hafter := hready.mp hrun
    have hvalues : ∀ in_name ∈ names, (st.values.get ⟨in_name, []⟩).isSome := by
      intro in_name hin
      refine h.known _ ((h.avail _).mpr (hafter _ ?_))
      rw [hneeds]
      exact List.mem_map_of_mem hin
    apply (runGraph_meets hprof hiteration hnames st id hvalues).weaken
    intro st' hstep
    refine ⟨⟨?_, ?_, ?_, fun loc => ?_, fun loc hloc => ?_, ?_⟩, Or.inl hstep⟩
    · rw [hstep.ran]
      exact List.append_subset.mpr ⟨h.sub, List.cons_subset.mpr ⟨hit, List.nil_subset _⟩⟩
    · rw [hstep.graphs_done, hstep.ran, h.done]
      ext x
      simp
    · rw [hstep.ran, List.map_append]
      refine h.nodup.append (List.nodup_singleton _) (List.disjoint_singleton.mpr fun hid => ?_)
      exact hdone (by rw [h.done]; exact List.mem_toFinset.mpr hid)
    · rw [hstep.avail_locs, hstep.ran, after_concat, h.avail]
    · rw [hstep.values]
      exact ((hstep.avail_locs loc).mp hloc).imp_left (h.known loc)
    · rw [hstep.ran]
      exact h.order.concat hafter
  · exact ⟨h, Or.inr ⟨rfl, fun hafter => absurd (hready.mpr hafter) hrun⟩⟩

/-- A pass runs something, or nothing can run. -/
theorem pass_meets (hiteration : 0 < iteration) (h : Progress gs values st) :
    Meets (fun _ => False) (gs.graphs.foldlM (visit drv iteration checkpointing) st) fun st' =>
      Progress gs values st' ∧
        (st.ran.length < st'.ran.length ∧ st'.prev_done = st.prev_done ∧
            st'.infinite = st.infinite ∨
          st' = st ∧ ∀ it ∈ gs.graphs,
            (∀ loc ∈ needs it, After gives (Initial values) st.ran loc) → it ∈ st.ran) := by
  apply Meets.foldlM_prefix (I := fun before st' => Progress gs values st' ∧
    (st.ran.length < st'.ran.length ∧ st'.prev_done = st.prev_done ∧
        st'.infinite = st.infinite ∨
      st' = st ∧ ∀ it ∈ before,
        (∀ loc ∈ needs it, After gives (Initial values) st.ran loc) → it ∈ st.ran))
  · rintro before it after st₁ hsplit ⟨hst₁, hcase⟩
    have hit : it ∈ gs.graphs := hsplit ▸ by simp
    apply (visit_meets hiteration hst₁ hit).weaken
    rintro st₂ ⟨hst₂, hturn⟩
    refine ⟨hst₂, ?_⟩
    cases hturn with
    | inl hstep =>
      have hlen : st₂.ran.length = st₁.ran.length + 1 := by rw [hstep.ran]; simp
      cases hcase with
      | inl hmore =>
        exact Or.inl ⟨by omega, hstep.prev_done.trans hmore.2.1, hstep.infinite.trans hmore.2.2⟩
      | inr hsame =>
        obtain ⟨rfl, -⟩ := hsame
        exact Or.inl ⟨by omega, hstep.prev_done, hstep.infinite⟩
    | inr hskip =>
      obtain ⟨rfl, hnot⟩ := hskip
      cases hcase with
      | inl hmore => exact Or.inl hmore
      | inr hsame =>
        obtain ⟨rfl, hbefore⟩ := hsame
        refine Or.inr ⟨rfl, List.forall_mem_append.mpr ⟨hbefore, ?_⟩⟩
        exact List.forall_mem_singleton.mpr hnot
  · exact ⟨h, Or.inr ⟨rfl, by simp⟩⟩

/-- How the loop ends. -/
def Ends (gs : ProfGraphs drv) (values : Dict IValueLocation V) :
    Except String (ComputeState V) → Prop
  | .ok st => st.ran.Perm gs.graphs ∧ InOrder needs gives (Initial values) st.ran
  | .error e => e = notUpdated ∧
      ∃ it ∈ gs.graphs, ¬Enabled needs gives (Initial values) gs.graphs it

theorem Progress.updated (h : Progress gs values st) (infinite prev_done prev_locs : ℕ) :
    Progress gs values { st with
      infinite := infinite
      prev_done := prev_done
      prev_locs := prev_locs } :=
  ⟨h.sub, h.done, h.nodup, h.avail, h.known, h.order⟩

theorem Progress.subperm (h : Progress gs values st) : st.ran.Subperm gs.graphs :=
  (List.Nodup.of_map _ h.nodup).subperm h.sub

/-- More passes than this are not made from a state. -/
def passesLeft (gs : ProfGraphs drv) (st : ComputeState V) : ℕ :=
  gs.graphs.length - st.ran.length + (gs.graphs.length + 3 - st.infinite) +
    if st.avail_locs.card = st.prev_locs then 0 else 1

/-- How a pass and the comparison after it end. -/
def TurnEnds (gs : ProfGraphs drv) (values : Dict IValueLocation V) (passes : ℕ) :
    Except String (ComputeState V) → Prop
  | .ok st => Progress gs values st ∧ st.prev_done = st.graphs_done.card ∧
      passesLeft gs st < passes
  | .error e => e = notUpdated ∧
      ∃ it ∈ gs.graphs, ¬Enabled needs gives (Initial values) gs.graphs it

theorem checkUpdated_of_more {st₁ : ComputeState V} (h : Progress gs values st)
    (hprev : st.prev_done = st.graphs_done.card) (h₁ : Progress gs values st₁)
    (hmore : st.ran.length < st₁.ran.length) (hprev₁ : st₁.prev_done = st.prev_done)
    (hinfinite : st₁.infinite = st.infinite) :
    TurnEnds gs values (passesLeft gs st) (checkUpdated gs.graphs st₁) := by
  have hlen := h₁.subperm.length_le
  have hchanged : ¬(st₁.graphs_done.card = st₁.prev_done ∧
      st₁.avail_locs.card = st₁.prev_locs) := by
    rw [h₁.card, hprev₁, hprev, h.card]
    omega
  unfold checkUpdated
  dsimp only
  rw [if_neg fun hboth => hchanged hboth.1, if_neg hchanged]
  refine ⟨h₁.updated _ _ _, rfl, ?_⟩
  unfold passesLeft
  dsimp only
  rw [if_pos rfl, hinfinite]
  omega

/-- Nothing could run: this is counted, or not all graphs can run. -/
theorem checkUpdated_of_stuck (h : Progress gs values st)
    (hprev : st.prev_done = st.graphs_done.card) (hleft : st.ran.length < gs.graphs.length)
    (hstuck : ∀ it ∈ gs.graphs,
      (∀ loc ∈ needs it, After gives (Initial values) st.ran loc) → it ∈ st.ran) :
    TurnEnds gs values (passesLeft gs st) (checkUpdated gs.graphs st) := by
  unfold checkUpdated
  dsimp only
  by_cases hlocs : st.avail_locs.card = st.prev_locs
  · rw [if_pos (⟨hprev.symm, hlocs⟩ :
      st.graphs_done.card = st.prev_done ∧ st.avail_locs.card = st.prev_locs)]
    split_ifs with hmany
    · have hnot : ∃ it ∈ gs.graphs, it ∉ st.ran := by
        by_contra hall
        have hsub : gs.graphs ⊆ st.ran := fun it hit => by
          by_contra hran
          exact hall ⟨it, hit, hran⟩
        have hlen := ((List.Nodup.of_map _ gs.nodup).subperm hsub).length_le
        omega
      obtain ⟨it, hit, hran⟩ := hnot
      exact ⟨rfl, it, hit, fun henabled => hran (mem_of_stuck hstuck hit henabled)⟩
    · refine ⟨h.updated _ _ _, rfl, ?_⟩
      unfold passesLeft
      dsimp only
      rw [if_pos rfl, if_pos hlocs]
      omega
  · rw [if_neg fun hboth => hlocs hboth.1.2, if_neg fun hboth => hlocs hboth.2]
    refine ⟨h.updated _ _ _, rfl, ?_⟩
    unfold passesLeft
    dsimp only
    rw [if_pos rfl, if_neg hlocs]
    omega

theorem turn_ends (hiteration : 0 < iteration) (h : Progress gs values st)
    (hprev : st.prev_done = st.graphs_done.card) (hleft : st.ran.length < gs.graphs.length) :
    TurnEnds gs values (passesLeft gs st)
      (gs.graphs.foldlM (visit drv iteration checkpointing) st >>= checkUpdated gs.graphs) := by
  have hpass : Meets (fun _ => False)
    (gs.graphs.foldlM (visit drv iteration checkpointing) st) _ := pass_meets hiteration h
  cases hrun : gs.graphs.foldlM (visit drv iteration checkpointing) st with
  | error e =>
    rw [hrun] at hpass
    exact hpass.elim
  | ok st₁ =>
    rw [hrun] at hpass
    obtain ⟨hst₁, hmore | hsame⟩ := hpass
    · exact checkUpdated_of_more h hprev hst₁ hmore.1 hmore.2.1 hmore.2.2
    · obtain ⟨rfl, hstuck⟩ := hsame
      exact checkUpdated_of_stuck h hprev hleft hstuck

theorem computeLoop_ends (hiteration : 0 < iteration) {fuel : ℕ} (h : Progress gs values st)
    (hprev : st.prev_done = st.graphs_done.card) (hfuel : passesLeft gs st < fuel) :
    ∃ res, computeLoop drv gs.graphs iteration checkpointing fuel st = some res ∧
      Ends gs values res := by
  induction fuel generalizing st with
  | zero => exact absurd hfuel (Nat.not_lt_zero _)
  | succ fuel ih =>
    rw [computeLoop]
    split_ifs with hleft
    · have hturn : TurnEnds gs values (passesLeft gs st)
          (gs.graphs.foldlM (visit drv iteration checkpointing) st >>= checkUpdated gs.graphs) :=
        turn_ends hiteration h hprev (by rwa [← h.card])
      cases hrun : gs.graphs.foldlM (visit drv iteration checkpointing) st >>=
          checkUpdated gs.graphs with
      | error e =>
        rw [hrun] at hturn
        exact ⟨_, rfl, hturn⟩
      | ok st' =>
        rw [hrun] at hturn
        obtain ⟨hst', hprev', hless⟩ := hturn
        exact ih hst' hprev' (by omega)
    · refine ⟨_, rfl, h.subperm.perm_of_length_le ?_, h.order⟩
      rw [← h.card]
      exact Nat.le_of_not_lt hleft

theorem computeLoop_mono {graphs : List (String × IRGraph)} {fuel fuel' : ℕ}
    (hle : fuel ≤ fuel') {res : Except String (ComputeState V)}
    (h : computeLoop drv graphs iteration checkpointing fuel st = some res) :
    computeLoop drv graphs iteration checkpointing fuel' st = some res := by
  induction fuel generalizing st fuel' with
  | zero => exact nomatch h
  | succ fuel ih =>
    obtain ⟨fuel', rfl⟩ := Nat.exists_eq_add_of_le' (Nat.one_le_of_lt hle)
    rw [computeLoop] at h ⊢
    split_ifs at h ⊢ with hleft
    · cases hrun : graphs.foldlM (visit drv iteration checkpointing) st >>=
          checkUpdated graphs with
      | error e => rwa [hrun] at h
      | ok st' =>
        rw [hrun] at h
        exact ih (Nat.le_of_succ_le_succ hle) h
    · exact h

/-- A graph that reads one value and writes another. -/
def linkGraph (name src tgt : String) : IRGraph :=
  ⟨name, [⟨"relu", [src], [tgt], name, false, true⟩],
    [(src, ⟨src, .tensor .FLOAT [1] false, false, true, false⟩),
      (tgt, ⟨tgt, .tensor .FLOAT [1] false, false, true, false⟩)], [src], [tgt], true⟩

def linkDriver : ProfilerDriver ℕ where
  graph_params _ := none
  toIRType _ := .tensor .FLOAT [1] false
  forward _ _ _ _ := 0
  measure _ _ _ _ _ := ⟨1, 1, 4⟩

theorem profilable_linkGraph (name src tgt : String) :
    Profilable linkDriver (linkGraph name src tgt) where
  inputs_known := by simp [linkGraph, IRGraph.getValue]
  params_known := by simp [linkGraph]

/-- Two graphs, the first of which waits for the second. -/
def linkGraphs : ProfGraphs linkDriver where
  graphs := [("g1", linkGraph "g1" "y" "z"), ("g2", linkGraph "g2" "x" "y")]
  nodup := by decide
  profilable := List.forall_mem_cons.mpr ⟨profilable_linkGraph _ _ _,
    List.forall_mem_singleton.mpr (profilable_linkGraph _ _ _)⟩

end Pass

end GraphProfiler

end Rannc
