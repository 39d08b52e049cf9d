import Rannc.Graph.BoundaryGraphs
import Rannc.Graph.BoundaryMoves
import Rannc.Graph.Closed
import Rannc.Graph.MergeSmall

/-!
# What a move does to the meaning

The two nodes of a move are run one after the other, before it and after it. The run after it gives
out what others need unless the move cuts a value off: operators that occur in several graphs are
removed and merged by other rules than the values that they write.
-/
namespace Rannc

open Dataflow IRGraph

/-- The value comes to the two graphs from outside. -/
def Available (src tgt : IRGraph) (name : String) : Prop :=
  name ∈ src.input_names ∨ name ∈ tgt.input_names ∧ name ∉ src.output_names

instance (src tgt : IRGraph) (name : String) : Decidable (Available src tgt name) :=
  inferInstanceAs (Decidable (_ ∨ _))

/-- The graph makes the value and gives it out. -/
def IRGraph.Gives (g : IRGraph) (name : String) : Prop :=
  name ∈ g.output_names ∧ name ∈ g.definedNames

section Runs

variable {V : Type}

/-- The two graphs are run one after the other. -/
def evalPair (src tgt : IRGraph) (I : Interp String V) (vals : String → V) :
    Option (Env String V × Env String V) := do
  let env1 ← src.evalValues I vals
  let env2 ← tgt.evalValues I (src.outputsOver env1 vals)
  return (env1, env2)

/-- One of the two graphs gives the value out. -/
def GivenOut (src tgt : IRGraph) (envs : Env String V × Env String V) (name : String) (v : V) :
    Prop :=
  name ∈ src.output_names ∧ envs.1 name = some v ∨ name ∈ tgt.output_names ∧ envs.2 name = some v

/-- The values of a run of the whole program: all operators hold, and the values that come to the
two graphs are given. -/
structure ProgramValues (I : Interp String V) (src tgt moved : IRGraph) (ρ : Env String V)
    (vals : String → V) : Prop where
  holds : ∀ g ∈ [src, tgt, moved], ∀ n ∈ g.nodes, Holds I ρ n.instr
  available : ∀ name, Available src tgt name → ρ name = some (vals name)
  params : ∀ g ∈ [src, tgt, moved], ∀ name, g.isParam name = true → ρ name = some (vals name)

end Runs

/-- After the move of an operator graph the two graphs can be run one after the other as before, and
give out all that is needed with the same values. -/
structure Preserves (src tgt moved src' tgt' : IRGraph) (needed : String → Prop) : Prop where
  src_inputs : ∀ name ∈ src'.input_names, src'.isParam name = false → Available src tgt name
  tgt_inputs : ∀ name ∈ tgt'.input_names, tgt'.isParam name = false →
    Available src tgt name ∨ src'.Gives name
  values : ∀ (V : Type) (I : Interp String V) (ρ : Env String V) (vals : String → V),
    ProgramValues I src tgt moved ρ vals →
    ∃ envs envs', evalPair src tgt I vals = some envs ∧ evalPair src' tgt' I vals = some envs' ∧
      ∀ name v, needed name → GivenOut src tgt envs name v → GivenOut src' tgt' envs' name v

/-- Two checked graphs of the operators of three others. -/
structure Rewired (src tgt moved src' tgt' : IRGraph) : Prop where
  node_inputs : ∀ g ∈ [src', tgt'], g.verifyNodeInputs = true
  no_duplicated : ∀ g ∈ [src', tgt'], g.verifyNoDuplicatedOutputs = true
  made : ∀ g ∈ [src', tgt'], MadeOf [src, tgt, moved] g

section Values

variable {V : Type} {I : Interp String V} {vals : String → V} {ρ env : Env String V} {g : IRGraph}

theorem outputsOver_eq (heval : g.evalValues I vals = some env)
    (hsame : ∀ name ∈ g.definedNames, env name = ρ name) {name : String}
    (h : g.Gives name ∨ ρ name = some (vals name)) :
    ρ name = some (g.outputsOver env vals name) := by
  unfold outputsOver
  cases hvalue : env name with
  | none =>
    have hnot : ¬ g.Gives name := by
      intro hgives
      have hsome := (evalValues_isSome_iff heval name).mpr hgives.2
      simp [hvalue] at hsome
    rw [h.resolve_left hnot]
    simp
  | some v =>
    have hdefined := (evalValues_isSome_iff heval name).mp (Option.isSome_of_eq_some hvalue)
    split_ifs with hout
    · rw [← hsame name hdefined, hvalue]
      rfl
    · exact h.resolve_left fun hgives => hout hgives.1

theorem holds_unit {ρ : Env String Unit} (hρ : ∀ name, (ρ name).isSome) (i : Instr String String) :
    Holds unitInterp ρ i := by
  obtain ⟨args, hargs⟩ := mapM_of_forall_some (f := ρ) (l := i.reads) fun name _ => hρ name
  refine ⟨args, hargs, fun name _ => ?_⟩
  obtain ⟨v, hv⟩ := Option.isSome_iff_exists.mp (hρ name)
  rw [hv]

end Values

theorem evalPair_eq_some {V : Type} {src tgt : IRGraph} {I : Interp String V} {vals : String → V}
    {envs : Env String V × Env String V} : evalPair src tgt I vals = some envs ↔
      src.evalValues I vals = some envs.1 ∧
        tgt.evalValues I (src.outputsOver envs.1 vals) = some envs.2 := by
  simp only [evalPair, Option.bind_eq_bind, Option.bind_eq_some_iff, Option.pure_def,
    Option.some.injEq]
  constructor
  · rintro ⟨env1, heval1, env2, heval2, rfl⟩
    exact ⟨heval1, heval2⟩
  · intro h
    exact ⟨envs.1, h.1, envs.2, h.2, rfl⟩

section Pair

variable {src tgt moved src' tgt' : IRGraph} {needed : String → Prop}
  (hp : OneProgram [src, tgt, moved])
include hp

theorem OneProgram.evalPair_old {V : Type} {I : Interp String V} {ρ : Env String V}
    {vals : String → V} (hρ : ProgramValues I src tgt moved ρ vals) :
    ∃ envs, evalPair src tgt I vals = some envs ∧
      (∀ name ∈ src.definedNames, envs.1 name = ρ name) ∧
      ∀ name ∈ tgt.definedNames, envs.2 name = ρ name := by
  have hsrc := hp.verified src (by simp)
  have htgt := hp.verified tgt (by simp)
  obtain ⟨env1, heval1, henv1⟩ := evalValues_eq hsrc.node_inputs hsrc.no_duplicated I vals
    (fun name hname => hρ.available name (Or.inl hname)) (hρ.holds src (by simp))
  have hread : ∀ name ∈ tgt.input_names, ρ name = some (src.outputsOver env1 vals name) := by
    intro name hname
    apply outputsOver_eq heval1 henv1
    by_cases hout : name ∈ src.output_names
    · exact Or.inl ⟨hout, hsrc.outputs hout⟩
    · exact Or.inr (hρ.available name (Or.inr ⟨hname, hout⟩))
  obtain ⟨env2, heval2, henv2⟩ := evalValues_eq htgt.node_inputs htgt.no_duplicated I _ hread
    (hρ.holds tgt (by simp))
  exact ⟨(env1, env2), evalPair_eq_some.mpr ⟨heval1, heval2⟩, henv1, henv2⟩

omit hp in
/-- The run after a move, where all values arrive. -/
theorem Rewired.evalPair_new (h : Rewired src tgt moved src' tgt')
    (hsrc : ∀ name ∈ src'.input_names, src'.isParam name = false → Available src tgt name)
    (htgt : ∀ name ∈ tgt'.input_names, tgt'.isParam name = false →
      Available src tgt name ∨ src'.Gives name)
    {V : Type} {I : Interp String V} {ρ : Env String V} {vals : String → V}
    (hρ : ProgramValues I src tgt moved ρ vals) :
    ∃ envs, evalPair src' tgt' I vals = some envs ∧
      (∀ name ∈ src'.definedNames, envs.1 name = ρ name) ∧
      ∀ name ∈ tgt'.definedNames, envs.2 name = ρ name := by
  have hholds : ∀ g ∈ [src', tgt'], ∀ n ∈ g.nodes, Holds I ρ n.instr := by
    intro g hg n hn
    obtain ⟨g', hg', hn'⟩ := (h.made g hg).nodes n hn
    exact hρ.holds g' hg' n hn'
  have hparam : ∀ g ∈ [src', tgt'], ∀ name ∈ g.input_names, g.isParam name = true →
      ρ name = some (vals name) := by
    intro g hg name hname hparam
    obtain ⟨g', hg', hparam'⟩ := (h.made g hg).params name hname hparam
    exact hρ.params g' hg' name hparam'
  obtain ⟨env1, heval1, henv1⟩ := evalValues_eq (h.node_inputs src' (by simp))
    (h.no_duplicated src' (by simp)) I vals
    (by
      intro name hname
      cases hcase : src'.isParam name with
      | true => exact hparam src' (by simp) name hname hcase
      | false => exact hρ.available name (hsrc name hname hcase))
    (hholds src' (by simp))
  obtain ⟨env2, heval2, henv2⟩ := evalValues_eq (h.node_inputs tgt' (by simp))
    (h.no_duplicated tgt' (by simp)) I (src'.outputsOver env1 vals)
    (by
      intro name hname
      apply outputsOver_eq heval1 henv1
      cases hcase : tgt'.isParam name with
      | true => exact Or.inr (hparam tgt' (by simp) name hname hcase)
      | false =>
        cases htgt name hname hcase with
        | inl havailable => exact Or.inr (hρ.available name havailable)
        | inr hgives => exact Or.inl hgives)
    (hholds tgt' (by simp))
  exact ⟨(env1, env2), evalPair_eq_some.mpr ⟨heval1, heval2⟩, henv1, henv2⟩

/-- The meaning is preserved if and only if all values arrive and all that is needed is given. -/
theorem Rewired.preserves_iff (h : Rewired src tgt moved src' tgt') :
    Preserves src tgt moved src' tgt' needed ↔
      (∀ name ∈ src'.input_names, src'.isParam name = false → Available src tgt name) ∧
      (∀ name ∈ tgt'.input_names, tgt'.isParam name = false →
        Available src tgt name ∨ src'.Gives name) ∧
      ∀ name, needed name → name ∈ src.output_names ∨ name ∈ tgt.output_names →
        src'.Gives name ∨ tgt'.Gives name := by
  have hsrc := hp.verified src (by simp)
  have htgt := hp.verified tgt (by simp)
  constructor
  · intro hpreserves
    refine ⟨hpreserves.src_inputs, hpreserves.tgt_inputs, fun name hneeded hout => ?_⟩
    have hunit : ProgramValues unitInterp src tgt moved (fun _ => some ()) fun _ => () :=
      ⟨fun _ _ n _ => holds_unit (fun _ => rfl) n.instr, fun _ _ => rfl, fun _ _ _ _ => rfl⟩
    obtain ⟨envs, envs', hold, hnew, hgiven⟩ := hpreserves.values Unit unitInterp _ _ hunit
    obtain ⟨heval1, heval2⟩ := evalPair_eq_some.mp hold
    obtain ⟨heval1', heval2'⟩ := evalPair_eq_some.mp hnew
    have hgivenOut : GivenOut src tgt envs name () := by
      cases hout with
      | inl hout =>
        have hsome := (evalValues_isSome_iff heval1 name).mpr (hsrc.outputs hout)
        exact Or.inl ⟨hout, Option.eq_some_of_isSome hsome⟩
      | inr hout =>
        have hsome := (evalValues_isSome_iff heval2 name).mpr (htgt.outputs hout)
        exact Or.inr ⟨hout, Option.eq_some_of_isSome hsome⟩
    refine (hgiven name () hneeded hgivenOut).imp (fun hleft => ?_) fun hright => ?_
    · exact ⟨hleft.1, (evalValues_isSome_iff heval1' name).mp (Option.isSome_of_eq_some hleft.2)⟩
    · exact ⟨hright.1, (evalValues_isSome_iff heval2' name).mp (Option.isSome_of_eq_some hright.2)⟩
  · rintro ⟨hsrc_inputs, htgt_inputs, hgives⟩
    refine ⟨hsrc_inputs, htgt_inputs, fun V I ρ vals hρ => ?_⟩
    obtain ⟨envs, hold, henv1, henv2⟩ := hp.evalPair_old hρ
    obtain ⟨envs', hnew, henv1', henv2'⟩ := h.evalPair_new hsrc_inputs htgt_inputs hρ
    refine ⟨envs, envs', hold, hnew, fun name v hneeded hgiven => ?_⟩
    have hvalue : ρ name = some v ∧ (name ∈ src.output_names ∨ name ∈ tgt.output_names) := by
      cases hgiven with
      | inl hleft => exact ⟨(henv1 name (hsrc.outputs hleft.1)).symm.trans hleft.2, Or.inl hleft.1⟩
      | inr hright =>
        exact ⟨(henv2 name (htgt.outputs hright.1)).symm.trans hright.2, Or.inr hright.1⟩
    refine (hgives name hneeded hvalue.2).imp (fun hleft => ?_) fun hright => ?_
    · exact ⟨hleft.1, (henv1' name hleft.2).trans hvalue.1⟩
    · exact ⟨hright.1, (henv2' name hright.2).trans hvalue.1⟩

end Pair

/-- What is left of a graph gives the value out, when the operators of another are taken from its
end. -/
def TailGives (g1 g2 : IRGraph) (name : String) : Prop :=
  name ∈ g1.stayingNames g2 ∧
    (name ∈ g1.output_names ∨ name ∈ g2.input_names ∧ g2.isParam name = false)

/-- The same when they are taken from its beginning. -/
def HeadGives (g1 g2 : IRGraph) (name : String) : Prop :=
  name ∈ g1.stayingNames g2 ∧ name ∈ g1.output_names

instance (g1 g2 : IRGraph) (name : String) : Decidable (TailGives g1 g2 name) :=
  inferInstanceAs (Decidable (_ ∧ _))

instance (g1 g2 : IRGraph) (name : String) : Decidable (HeadGives g1 g2 name) :=
  inferInstanceAs (Decidable (_ ∧ _))

/-- Nothing is cut off by a move to the target. What the moved operators read is known on either
side, what the target reads of the source stays there or moves with an output, and so does all that
is needed. -/
structure KeptByTail (src tgt moved : IRGraph) (required_inputs : List String)
    (needed : String → Prop) : Prop where
  reads : ∀ name ∈ moved.input_names, moved.isParam name = false →
    name ∈ src.definedNames ∨ name ∈ tgt.input_names
  handed : ∀ name ∈ tgt.input_names, tgt.isParam name = false → name ∈ src.output_names →
    name ∉ moved.output_names → name ∈ src.input_names ∨ name ∈ src.stayingNames moved
  given : ∀ name, needed name → name ∈ src.output_names ∨ name ∈ tgt.output_names →
    TailGives src moved name ∨ MergedGives moved tgt required_inputs name

/-- Nothing is cut off by a move to the source. -/
structure KeptByHead (src tgt moved : IRGraph) (required_inputs : List String)
    (needed : String → Prop) : Prop where
  reads : ∀ name ∈ moved.input_names, moved.isParam name = false → name ∉ src.output_names →
    name ∈ src.input_names ∨ name ∈ tgt.input_names
  handed : ∀ name ∈ tgt.stayingReads moved, tgt.isParam name = false →
    name ∈ tgt.input_names ∨ name ∈ moved.output_names →
      Available src tgt name ∨ MergedGives src moved required_inputs name
  given : ∀ name, needed name → name ∈ src.output_names ∨ name ∈ tgt.output_names →
    MergedGives src moved required_inputs name ∨ HeadGives tgt moved name

theorem mem_definedNames_of_staying {g g1 g2 : IRGraph} (hnodes : g.nodes = g1.stayingNodes g2)
    (hinputs : g.verifyNodeInputs = true) {name : String} (hname : name ∈ g1.stayingNames g2) :
    name ∈ g.definedNames := by
  rw [mem_stayingNames, mem_stayingReads, ← hnodes] at hname
  rcases hname with ⟨n, hn, hin⟩ | ⟨n, hn, hout⟩
  · exact read_mem_definedNames hinputs hn hin
  · exact mem_definedNames.mpr (Or.inr ⟨n, hn, hout⟩)

section Removed

variable {g g1 g2 : IRGraph} (hinputs : g.verifyNodeInputs = true) (name : String)
include hinputs

theorem IRGraph.TailRemoved.gives_iff (h : TailRemoved g1 g2 g) :
    g.Gives name ↔ TailGives g1 g2 name := by
  rw [Gives, h.outputs, and_iff_left_of_imp]
  · rfl
  · exact fun hout => mem_definedNames_of_staying h.nodes hinputs hout.1

theorem IRGraph.HeadRemoved.gives_iff (h : HeadRemoved g1 g2 g) :
    g.Gives name ↔ HeadGives g1 g2 name := by
  rw [Gives, h.outputs, and_iff_left_of_imp]
  · rfl
  · exact fun hout => mem_definedNames_of_staying h.nodes hinputs hout.1

end Removed

theorem IRGraph.TailRemoved.madeOf {gs : List IRGraph} {g g1 g2 : IRGraph}
    (h : TailRemoved g1 g2 g) (h1 : g1 ∈ gs) : MadeOf gs g where
  nodes := fun _ hn => ⟨g1, h1, (mem_stayingNodes.mp (h.nodes ▸ hn)).1⟩
  params := fun name hname hparam => ⟨g1, h1, (h.params name hname).symm.trans hparam⟩

theorem IRGraph.HeadRemoved.madeOf {gs : List IRGraph} {g g1 g2 : IRGraph}
    (h : HeadRemoved g1 g2 g) (h1 : g1 ∈ gs) : MadeOf gs g where
  nodes := fun _ hn => ⟨g1, h1, (mem_stayingNodes.mp (h.nodes ▸ hn)).1⟩
  params := fun name hname hparam => ⟨g1, h1, (h.params name hname).symm.trans hparam⟩

section Moves

variable {src tgt moved src' tgt' : IRGraph} {needed : String → Prop}
  {required_inputs : List String} {name name' : String}
  (hp : OneProgram [src, tgt, moved])
include hp

theorem arrives_moved_iff {x : String} (hx : x ∈ moved.input_names)
    (hparam : moved.isParam x = false) :
    Available src tgt x ∨ TailGives src moved x ↔ x ∈ src.definedNames ∨ x ∈ tgt.input_names := by
  have hsrc : src ∈ [src, tgt, moved] := by simp
  have hmoved : moved ∈ [src, tgt, moved] := by simp
  have hstays (hdefined : x ∈ src.definedNames) : Available src tgt x ∨ TailGives src moved x := by
    rcases mem_definedNames.mp hdefined with hin | ⟨n, hn, hwrite⟩
    · exact Or.inl (Or.inl hin)
    · have hstays : n ∈ src.stayingNodes moved := mem_stayingNodes.mpr
        ⟨hn, fun hm => (hp.verified moved hmoved).input_not_written hm hx hwrite⟩
      exact Or.inr ⟨mem_stayingNames.mpr (Or.inr ⟨n, hstays, hwrite⟩), Or.inr ⟨hx, hparam⟩⟩
  constructor
  · rintro ((hin | hin) | hgives)
    · exact Or.inl (mem_definedNames.mpr (Or.inl hin))
    · exact Or.inr hin.1
    · exact Or.inl (stayingNames_defined hp hsrc hgives.1)
  · rintro (hdefined | hin)
    · exact hstays hdefined
    · by_cases hout : x ∈ src.output_names
      · exact hstays ((hp.verified src hsrc).outputs hout)
      · exact Or.inl (Or.inr ⟨hin, hout⟩)

omit hp in
theorem arrives_tgt_iff {x : String} (hx : x ∈ tgt.input_names) :
    Available src tgt x ∨ TailGives src moved x ↔
      (x ∈ src.output_names → x ∈ src.input_names ∨ x ∈ src.stayingNames moved) := by
  unfold Available TailGives
  by_cases hout : x ∈ src.output_names
  · simp [hout]
  · simp [hout, hx]

variable (hinputs : ∀ g ∈ [src', tgt'], g.verifyNodeInputs = true)
  (hnodup : ∀ g ∈ [src', tgt'], g.verifyNoDuplicatedOutputs = true)
include hinputs hnodup

theorem preserves_tail_iff (hused : src.noUnusedValue = true)
    (hsrc : removeTailSubgraph name src moved = some src')
    (htgt : mergeGraphs name' moved tgt required_inputs = some tgt') :
    Preserves src tgt moved src' tgt' needed ↔
      KeptByTail src tgt moved required_inputs needed := by
  have hsrc_mem : src ∈ [src, tgt, moved] := by simp
  have htgt_mem : tgt ∈ [src, tgt, moved] := by simp
  have hmoved_mem : moved ∈ [src, tgt, moved] := by simp
  have hremoved := removeTailSubgraph_spec hp hsrc_mem hmoved_mem hused hsrc
  have hrewired : Rewired src tgt moved src' tgt' :=
    ⟨hinputs, hnodup, List.forall_mem_cons.mpr ⟨hremoved.madeOf hsrc_mem,
      List.forall_mem_singleton.mpr (hp.mergeGraphs_madeOf hmoved_mem htgt_mem htgt)⟩⟩
  have hgives := hremoved.gives_iff (hinputs src' (by simp))
  have hgives' : ∀ x, tgt'.Gives x ↔ MergedGives moved tgt required_inputs x :=
    hp.mergeGraphs_gives hmoved_mem htgt_mem htgt
  have hreads := fun {x} => hp.mergeGraphs_reads hmoved_mem htgt_mem htgt (x := x)
  rw [hrewired.preserves_iff hp]
  simp only [hgives, hgives']
  constructor
  · rintro ⟨-, harrives, hgiven⟩
    refine ⟨fun x hx hparam => ?_, fun x hx hparam hout hnot => ?_, hgiven⟩
    · obtain ⟨hx', hparam'⟩ := hreads.mpr (Or.inl ⟨hx, hparam⟩)
      exact (arrives_moved_iff hp hx hparam).mp (harrives x hx' hparam')
    · obtain ⟨hx', hparam'⟩ := hreads.mpr (Or.inr ⟨⟨hx, hparam⟩, hnot⟩)
      exact (arrives_tgt_iff hx).mp (harrives x hx' hparam') hout
  · intro hkept
    refine ⟨fun x hx _ => Or.inl ((hremoved.inputs x).mp hx).1, fun x hx' hparam' => ?_,
      hkept.given⟩
    rcases hreads.mp ⟨hx', hparam'⟩ with ⟨hx, hparam⟩ | ⟨⟨hx, hparam⟩, hnot⟩
    · exact (arrives_moved_iff hp hx hparam).mpr (hkept.reads x hx hparam)
    · exact (arrives_tgt_iff hx).mpr fun hout => hkept.handed x hx hparam hout hnot

theorem preserves_head_iff (hused : tgt.noUnusedValue = true)
    (hfirst : ∀ n ∈ tgt.stayingNodes moved, ∀ out ∈ n.output_names, out ∉ moved.input_names)
    (hsrc : mergeGraphs name src moved required_inputs = some src')
    (htgt : removeHeadSubgraph name' tgt moved = some tgt') :
    Preserves src tgt moved src' tgt' needed ↔
      KeptByHead src tgt moved required_inputs needed := by
  have hsrc_mem : src ∈ [src, tgt, moved] := by simp
  have htgt_mem : tgt ∈ [src, tgt, moved] := by simp
  have hmoved_mem : moved ∈ [src, tgt, moved] := by simp
  have hremoved := removeHeadSubgraph_spec hp htgt_mem hmoved_mem hused hfirst htgt
  have hrewired : Rewired src tgt moved src' tgt' :=
    ⟨hinputs, hnodup, List.forall_mem_cons.mpr ⟨hp.mergeGraphs_madeOf hsrc_mem hmoved_mem hsrc,
      List.forall_mem_singleton.mpr (hremoved.madeOf htgt_mem)⟩⟩
  have hgives : ∀ x, src'.Gives x ↔ MergedGives src moved required_inputs x :=
    hp.mergeGraphs_gives hsrc_mem hmoved_mem hsrc
  have hgives' := hremoved.gives_iff (hinputs tgt' (by simp))
  have hreads := fun {x} => hp.mergeGraphs_reads hsrc_mem hmoved_mem hsrc (x := x)
  rw [hrewired.preserves_iff hp]
  simp only [hgives, hgives']
  constructor
  · rintro ⟨havailable, harrives, hgiven⟩
    refine ⟨fun x hx hparam hnot => ?_, fun x hx hparam hcase => ?_, hgiven⟩
    · obtain ⟨hx', hparam'⟩ := hreads.mpr (Or.inr ⟨⟨hx, hparam⟩, hnot⟩)
      exact (havailable x hx' hparam').imp_right And.left
    · have hx' := (hremoved.inputs x).mpr ⟨hx, hcase⟩
      exact harrives x hx' ((hremoved.params x hx').trans hparam)
  · intro hkept
    refine ⟨fun x hx' hparam' => ?_, fun x hx' hparam' => ?_, hkept.given⟩
    · rcases hreads.mp ⟨hx', hparam'⟩ with ⟨hx, -⟩ | ⟨⟨hx, hparam⟩, hnot⟩
      · exact Or.inl hx
      · exact (hkept.reads x hx hparam hnot).imp_right fun hin => ⟨hin, hnot⟩
    · obtain ⟨hx, hcase⟩ := (hremoved.inputs x).mp hx'
      exact hkept.handed x hx ((hremoved.params x hx').symm.trans hparam') hcase

end Moves

/-- The graphs of the two nodes and of the moved one are parts of a program. The node that the moved
one is taken from uses all its values, and the target hands values to it over its sub edges. -/
structure NodeMove.InProgram (move : NodeMove) (src_node tgt_node : MLNode) : Prop where
  program : OneProgram [src_node.graph, tgt_node.graph, move.moved_node.graph]
  used : (move.origin src_node tgt_node).graph.noUnusedValue = true
  fed : move.direction = false → ∀ n ∈ tgt_node.graph.nodes, n ∉ move.moved_node.graph.nodes →
    ∀ out ∈ n.output_names, out ∈ move.moved_node.graph.input_names →
      ∃ se ∈ tgt_node.sub_edges, se.tgt_id = move.moved_node.id

/-- The value is an output of the model, or another node reads it. -/
def Needed (outputs : List String) (src_node tgt_node : MLNode) (all_nodes : List MLNode)
    (name : String) : Prop :=
  name ∈ outputs ∨
    ∃ n ∈ all_nodes, n.id ≠ src_node.id ∧ n.id ≠ tgt_node.id ∧ name ∈ n.graph.input_names

instance (outputs : List String) (src_node tgt_node : MLNode) (all_nodes : List MLNode)
    (name : String) : Decidable (Needed outputs src_node tgt_node all_nodes name) :=
  inferInstanceAs (Decidable (_ ∨ _))

/-- Nothing that is read or needed is cut off. -/
def NodeMove.Keeps (move : NodeMove) (outputs : List String) (src_node tgt_node : MLNode)
    (all_nodes : List MLNode) : Prop :=
  if move.direction then
    KeptByTail src_node.graph tgt_node.graph move.moved_node.graph
      (getRequiredInputs src_node tgt_node all_nodes)
      (Needed outputs src_node tgt_node all_nodes)
  else
    KeptByHead src_node.graph tgt_node.graph move.moved_node.graph
      (getPreservedOutputs src_node.id move.moved_node.graph.name all_nodes)
      (Needed outputs src_node tgt_node all_nodes)

/-- The two new graphs compute what the old ones did for the others. -/
def NodeMove.PreservesMeaning (move : NodeMove) (outputs : List String)
    (src_node tgt_node : MLNode) (all_nodes : List MLNode) (moved : MoveResult) : Prop :=
  Preserves src_node.graph tgt_node.graph move.moved_node.graph moved.src_node.graph
    moved.tgt_node.graph (Needed outputs src_node tgt_node all_nodes)

theorem MoveResult.Passes.checks {moved : MoveResult} (h : moved.Passes) :
    (∀ g ∈ [moved.src_node.graph, moved.tgt_node.graph], g.verifyNodeInputs = true) ∧
      ∀ g ∈ [moved.src_node.graph, moved.tgt_node.graph], g.verifyNoDuplicatedOutputs = true := by
  have hverified := h.verified
  simp only [MoveResult.verify, Bool.and_eq_true] at hverified
  obtain ⟨⟨⟨⟨-, hsrc⟩, htgt⟩, -⟩, -⟩ := hverified
  simp [h.src_inputs, h.tgt_inputs, hsrc, htgt]

section Apply

variable {names : NameSupply} {used : ℕ} {move : NodeMove} {src_node tgt_node : MLNode}
  {edge : MLEdge} {all_nodes : List MLNode} {moved : MoveResult}
  (happly : move.apply names used src_node edge tgt_node all_nodes = some moved)
include happly

theorem NodeMove.apply_to_tgt (hdirection : move.direction = true) :
    removeTailSubgraph (names.generateName used "REMOVED_") src_node.graph
        move.moved_node.graph = some moved.src_node.graph ∧
      mergeGraphs (names.generateName (used + 1) "ML_") move.moved_node.graph tgt_node.graph
        (getRequiredInputs src_node tgt_node all_nodes) = some moved.tgt_node.graph := by
  simp only [NodeMove.apply, hdirection, if_true, move_to_tgt, Option.bind_eq_bind,
    Option.bind_eq_some_iff, Option.pure_def, Option.some.injEq] at happly
  obtain ⟨src', hsrc, tgt', htgt, rfl⟩ := happly
  exact ⟨hsrc, htgt⟩

theorem NodeMove.apply_to_src (hdirection : move.direction = false) :
    mergeGraphs (names.generateName used "ML_") src_node.graph move.moved_node.graph
        (getPreservedOutputs src_node.id move.moved_node.graph.name all_nodes) =
          some moved.src_node.graph ∧
      removeHeadSubgraph (names.generateName (used + 1) "REMOVED_") tgt_node.graph
        move.moved_node.graph = some moved.tgt_node.graph := by
  simp only [NodeMove.apply, hdirection, Bool.false_eq_true, if_false, move_to_src,
    Option.bind_eq_bind, Option.bind_eq_some_iff, Option.pure_def, Option.some.injEq] at happly
  obtain ⟨src', hsrc, tgt', htgt, rfl⟩ := happly
  exact ⟨hsrc, htgt⟩

end Apply

section Made

variable {outputs : List String} {names : NameSupply} {used : ℕ} {st : Adjusting} {move : NodeMove}
  {src_node tgt_node : MLNode} {edge : MLEdge} {moved : MoveResult}
  (hallowed : Allowed st move src_node tgt_node edge)
  (hprogram : move.InProgram src_node tgt_node)
  (happly : move.apply names used src_node edge tgt_node st.all_nodes = some moved)
  (hpasses : moved.Passes)
include hprogram happly hpasses

theorem NodeMove.preserves_to_tgt (hdirection : move.direction = true) :
    move.PreservesMeaning outputs src_node tgt_node st.all_nodes moved ↔
      KeptByTail src_node.graph tgt_node.graph move.moved_node.graph
        (getRequiredInputs src_node tgt_node st.all_nodes)
        (Needed outputs src_node tgt_node st.all_nodes) := by
  obtain ⟨hinputs, hnodup⟩ := hpasses.checks
  obtain ⟨hp, hused, -⟩ := hprogram
  obtain ⟨hsrc, htgt⟩ := NodeMove.apply_to_tgt happly hdirection
  rw [NodeMove.origin, if_pos hdirection] at hused
  exact preserves_tail_iff hp hinputs hnodup hused hsrc htgt

include hallowed in
theorem NodeMove.preserves_to_src (hdirection : move.direction = false) :
    move.PreservesMeaning outputs src_node tgt_node st.all_nodes moved ↔
      KeptByHead src_node.graph tgt_node.graph move.moved_node.graph
        (getPreservedOutputs src_node.id move.moved_node.graph.name st.all_nodes)
        (Needed outputs src_node tgt_node st.all_nodes) := by
  obtain ⟨hinputs, hnodup⟩ := hpasses.checks
  obtain ⟨hp, hused, hfed⟩ := hprogram
  have hfree := NodeMove.free hallowed.free
  obtain ⟨hsrc, htgt⟩ := NodeMove.apply_to_src happly hdirection
  rw [NodeMove.origin, if_neg (by simp [hdirection])] at hused hfree
  refine preserves_head_iff hp hinputs hnodup hused ?_ hsrc htgt
  -- a sub edge that brings the value would keep the node where it is
  intro n hn out hout hin
  obtain ⟨hn, hstays⟩ := mem_stayingNodes.mp hn
  obtain ⟨se, hse, htgt_id⟩ := hfed hdirection n hn hstays out hout hin
  have hnear := hfree.inside se hse
  rw [hdirection] at hnear
  exact hnear htgt_id

end Made

/-- A move that is made preserves the meaning if and only if it cuts nothing off. -/
theorem NodeMove.preservesMeaning_iff (outputs : List String) {names : NameSupply} {used : ℕ}
    {st : Adjusting} {move : NodeMove} {src_node tgt_node : MLNode} {edge : MLEdge}
    {moved : MoveResult} (hallowed : Allowed st move src_node tgt_node edge)
    (hprogram : move.InProgram src_node tgt_node)
    (happly : move.apply names used src_node edge tgt_node st.all_nodes = some moved)
    (hpasses : moved.Passes) :
    move.PreservesMeaning outputs src_node tgt_node st.all_nodes moved ↔
      move.Keeps outputs src_node tgt_node st.all_nodes := by
  unfold Keeps
  cases hdirection : move.direction with
  | true =>
    rw [if_pos rfl]
    exact preserves_to_tgt hprogram happly hpasses hdirection
  | false =>
    rw [if_neg Bool.false_ne_true]
    exact preserves_to_src hallowed hprogram happly hpasses hdirection

/-- The value is a batch of floats under its own name. -/
def IRValue.isFloatBatch (value : IRValue) (name : String) : Bool :=
  match value with
  | ⟨name', .tensor .FLOAT [2, 4] true, false, true, false⟩ => name' = name
  | _ => false

theorem IRValue.eq_of_isFloatBatch {value : IRValue} {name : String}
    (h : value.isFloatBatch name = true) : value = (tensorValue true name).2 := by
  unfold IRValue.isFloatBatch at h
  split at h
  · obtain rfl := of_decide_eq_true h
    rfl
  · cases h

theorem oneProgram_of_floatBatches {gs : List IRGraph}
    (hbatches : ∀ g ∈ gs, ∀ it ∈ g.values, it.2.isFloatBatch it.1 = true)
    (hchecks : ∀ g ∈ gs, g.verifyNodeInputs = true ∧ g.verifyNoDuplicatedOutputs = true ∧
      g.output_names ⊆ g.definedNames ∧ (∀ name ∈ g.definedNames, g.hasValue name = true) ∧
      (g.nodes.map IRNode.id).Nodup)
    (hproducers : ∀ g ∈ gs, ∀ g' ∈ gs, ∀ n ∈ g.nodes, ∀ n' ∈ g'.nodes, ∀ out ∈ n.output_names,
      out ∈ n'.output_names → n = n')
    (hids : ∀ g ∈ gs, ∀ g' ∈ gs, ∀ n ∈ g.nodes, ∀ n' ∈ g'.nodes, n.id = n'.id → n = n') :
    OneProgram gs := by
  have hvalue : ∀ g ∈ gs, ∀ name value, g.getValue name = some value →
      value = (tensorValue true name).2 := by
    intro g hg name value hvalue
    obtain ⟨before, after, hsplit, -⟩ := List.lookup_eq_some_iff.mp hvalue
    exact IRValue.eq_of_isFloatBatch (hbatches g hg (name, value) (by simp [hsplit]))
  refine ⟨fun g hg => ?_, fun g hg g' hg' name value value' hv hv' => ?_, hproducers, hids, ?_⟩
  · obtain ⟨hinputs, hnodup, houtputs, hnames, hnode_ids⟩ := hchecks g hg
    refine ⟨hinputs, hnodup, houtputs, fun name hname => ?_, hnode_ids⟩
    obtain ⟨value, hv⟩ := Option.isSome_iff_exists.mp (hnames name hname)
    exact ⟨value, hv, by rw [hvalue g hg name value hv]; rfl⟩
  · rw [hvalue g hg name value hv, hvalue g' hg' name value' hv']
  · intro g hg n hn out hout g' hg'
    cases hv : g'.getValue out with
    | none => simp [isParam, hv]
    | some value =>
      rw [isParam, hv, hvalue g' hg' out value hv]
      rfl

/-- The state before the moves, on the graph that coarsening makes of a model. -/
def MLPartitioner.StartsMoves (p : MLPartitioner) (ir_graph : IRGraph) (st : Adjusting)
    (moves : List NodeMove) : Prop :=
  ∃ ml_graph coarse used,
    initialMLGraph .sinksFirst .sorted .inserted ir_graph = some ml_graph ∧
    p.coarsen 1 ml_graph 0 = some (coarse, used) ∧ startAdjusting coarse used = some (st, moves)

/-- A move on such a graph, and what is looked up for it. -/
structure MoveCase where
  st : Adjusting
  moves : List NodeMove
  move : NodeMove
  src_node : MLNode
  tgt_node : MLNode
  edge : MLEdge
  moved : MoveResult

/-- The first move in a direction, after one iteration of coarsening. -/
def MLPartitioner.firstMove (p : MLPartitioner) (ir_graph : IRGraph) (direction : Bool) :
    Option MoveCase := do
  let ml_graph ← initialMLGraph .sinksFirst .sorted .inserted ir_graph
  let (coarse, used) ← p.mergeAdjacents ml_graph (ml_graph.nodes.length > 200) 1 0
  guard (3 < ml_graph.nodes.length ∧ coarse.nodes.length ≤ 3)
  let (st, moves) ← startAdjusting coarse used
  let move ← moves.find? fun move => move.direction = direction
  let src_node ← st.node_map.get move.src_id
  let tgt_node ← st.node_map.get move.tgt_id
  let edge ← st.edge_map.get move.edge.ends
  let moved ← move.apply p.names st.used src_node edge tgt_node st.all_nodes
  return ⟨st, moves, move, src_node, tgt_node, edge, moved⟩

namespace MoveCase

variable (c : MoveCase)

def graphs : List IRGraph := [c.src_node.graph, c.tgt_node.graph, c.move.moved_node.graph]

/-- The move is allowed and passes, and the graphs are parts of a program. -/
def Checked : Prop :=
  (c.move.blocked c.src_node c.tgt_node c.st.all_sub_edges = some false ∧
    c.move.sub_edge.ends ∈ c.edge.sub_edges.map MLEdge.ends) ∧
  ((∀ g ∈ c.graphs, ∀ it ∈ g.values, it.2.isFloatBatch it.1 = true) ∧
    (∀ g ∈ c.graphs, g.verifyNodeInputs = true ∧ g.verifyNoDuplicatedOutputs = true ∧
      g.output_names ⊆ g.definedNames ∧ (∀ name ∈ g.definedNames, g.hasValue name = true) ∧
      (g.nodes.map IRNode.id).Nodup) ∧
    (∀ g ∈ c.graphs, ∀ g' ∈ c.graphs, ∀ n ∈ g.nodes, ∀ n' ∈ g'.nodes, ∀ out ∈ n.output_names,
      out ∈ n'.output_names → n = n') ∧
    ∀ g ∈ c.graphs, ∀ g' ∈ c.graphs, ∀ n ∈ g.nodes, ∀ n' ∈ g'.nodes, n.id = n'.id → n = n') ∧
  ((c.move.origin c.src_node c.tgt_node).graph.noUnusedValue = true ∧
    (c.move.direction = false → ∀ n ∈ c.tgt_node.graph.nodes, n ∉ c.move.moved_node.graph.nodes →
      ∀ out ∈ n.output_names, out ∈ c.move.moved_node.graph.input_names →
        ∃ se ∈ c.tgt_node.sub_edges, se.tgt_id = c.move.moved_node.id)) ∧
  c.moved.src_node.graph.verifyNodeInputs = true ∧
    c.moved.tgt_node.graph.verifyNodeInputs = true ∧ c.moved.verify = true

instance : Decidable c.Checked := inferInstanceAs (Decidable (_ ∧ _))

end MoveCase

theorem MLPartitioner.firstMove_spec {p : MLPartitioner} {ir_graph : IRGraph} {direction : Bool}
    {c : MoveCase} (h : p.firstMove ir_graph direction = some c) (hchecked : c.Checked) :
    p.StartsMoves ir_graph c.st c.moves ∧ c.move ∈ c.moves ∧ c.move.direction = direction ∧
      Allowed c.st c.move c.src_node c.tgt_node c.edge ∧
      c.move.InProgram c.src_node c.tgt_node ∧
      c.move.apply p.names c.st.used c.src_node c.edge c.tgt_node c.st.all_nodes = some c.moved ∧
      c.moved.Passes := by
  obtain ⟨ml_graph, hinit, h⟩ := Option.bind_eq_some_iff.mp h
  obtain ⟨⟨coarse, used⟩, hmerge, h⟩ := Option.bind_eq_some_iff.mp h
  obtain ⟨_, hguard, h⟩ := Option.bind_eq_some_iff.mp h
  obtain ⟨hmany, hfew⟩ : 3 < ml_graph.nodes.length ∧ coarse.nodes.length ≤ 3 := by
    by_contra hnot
    simp [guard, hnot] at hguard
  obtain ⟨⟨st, moves⟩, hstart, h⟩ := Option.bind_eq_some_iff.mp h
  obtain ⟨move, hmove, h⟩ := Option.bind_eq_some_iff.mp h
  obtain ⟨src_node, hsrc, h⟩ := Option.bind_eq_some_iff.mp h
  obtain ⟨tgt_node, htgt, h⟩ := Option.bind_eq_some_iff.mp h
  obtain ⟨edge, hedge, h⟩ := Option.bind_eq_some_iff.mp h
  obtain ⟨moved, happly, h⟩ := Option.bind_eq_some_iff.mp h
  obtain rfl := Option.some.inj h
  obtain ⟨⟨hfree, hsub_edge⟩, ⟨hbatches, hgraphs, hproducers, hids⟩, ⟨hused, hfed⟩, hpasses⟩ :=
    hchecked
  exact ⟨⟨ml_graph, coarse, used, hinit, coarsen_of_once hmany hmerge hfew, hstart⟩,
    List.mem_of_find?_eq_some hmove, by simpa using List.find?_some hmove,
    ⟨hsrc, htgt, hfree, hedge, hsub_edge⟩,
    ⟨oneProgram_of_floatBatches hbatches hgraphs hproducers hids, hused, hfed⟩, happly,
    ⟨hpasses.1, hpasses.2.1, hpasses.2.2⟩⟩

/-- Four operators in a row. -/
def rowModel : IRGraph where
  name := "g"
  nodes := [⟨"aten::relu", ["x"], ["u"], "n0", false, true⟩,
    ⟨"aten::tanh", ["u"], ["h"], "n1", false, true⟩,
    ⟨"aten::exp", ["h"], ["y"], "n2", false, true⟩,
    ⟨"aten::log", ["y"], ["z"], "n3", false, true⟩]
  values := [tensorValue true "x", tensorValue true "u", tensorValue true "h",
    tensorValue true "y", tensorValue true "z"]
  input_names := ["x"]
  output_names := ["h", "z"]

/-- A split, the parts of which two operators read. One of them reads the input, too. -/
def splitModel : IRGraph where
  name := "g"
  nodes := [⟨"aten::split", ["x"], ["p", "s"], "n0", false, true⟩,
    ⟨"aten::add", ["p", "x"], ["q"], "n1", false, true⟩,
    ⟨"aten::relu", ["q"], ["r"], "n2", false, true⟩,
    ⟨"aten::tanh", ["s"], ["y"], "n3", false, true⟩]
  values := [tensorValue true "x", tensorValue true "p", tensorValue true "s",
    tensorValue true "q", tensorValue true "r", tensorValue true "y"]
  input_names := ["x"]
  output_names := ["r", "y"]

/-- A partitioner that finds the split and the addition slower together by one. -/
def splitPartitioner : MLPartitioner :=
  { MLPartitioner.crossingPartitioner with
    profile := fun g =>
      let ops := g.nodes.map IRNode.name
      if ops = ["aten::split"] then ⟨1, 0, 0⟩
      else if ops = ["aten::split", "aten::add"] then ⟨4, 0, 0⟩
      else if ops = ["aten::split", "aten::tanh"] then ⟨100, 0, 0⟩
      else if ops = ["aten::tanh"] then ⟨10, 0, 0⟩
      else if ops = ["aten::add", "aten::relu"] then ⟨1, 0, 0⟩
      else ⟨2, 0, 0⟩ }

/-- The second of four operators is moved to the others. Its result is an output of the model that
the third passes on. -/
theorem preservesMeaning_iff_row : ∃ c,
    MLPartitioner.crossingPartitioner.firstMove rowModel true = some c ∧
    c.move.PreservesMeaning rowModel.output_names c.src_node c.tgt_node c.st.all_nodes c.moved := by
  have h : (MLPartitioner.crossingPartitioner.firstMove rowModel true).any (fun c => c.Checked ∧
      (∀ name ∈ c.move.moved_node.graph.input_names,
        c.move.moved_node.graph.isParam name = false →
          name ∈ c.src_node.graph.definedNames ∨ name ∈ c.tgt_node.graph.input_names) ∧
      (∀ name ∈ c.tgt_node.graph.input_names, c.tgt_node.graph.isParam name = false →
        name ∈ c.src_node.graph.output_names → name ∉ c.move.moved_node.graph.output_names →
          name ∈ c.src_node.graph.input_names ∨
            name ∈ c.src_node.graph.stayingNames c.move.moved_node.graph) ∧
      ∀ name ∈ c.src_node.graph.output_names ++ c.tgt_node.graph.output_names,
        TailGives c.src_node.graph c.move.moved_node.graph name ∨
          MergedGives c.move.moved_node.graph c.tgt_node.graph
            (getRequiredInputs c.src_node c.tgt_node c.st.all_nodes) name) = true := by
    decide +kernel
  obtain ⟨c, hc, hres⟩ := (Option.any_eq_true _ _).mp h
  obtain ⟨hchecked, hreads, hhanded, hgiven⟩ := of_decide_eq_true hres
  obtain ⟨-, -, hdirection, hallowed, hprogram, happly, hpasses⟩ :=
    MLPartitioner.firstMove_spec hc hchecked
  refine ⟨c, hc, (NodeMove.preservesMeaning_iff rowModel.output_names hallowed hprogram happly
    hpasses).mpr ?_⟩
  rw [NodeMove.Keeps, if_pos hdirection]
  exact ⟨hreads, hhanded, fun name _ hout => hgiven name (List.mem_append.mpr hout)⟩

/-- The addition is in two nodes, and it is moved to the one that it was taken to. The value that it
reads becomes an input there, so the split is left out, and with it the other part. -/
theorem not_preservesMeaning : ¬ ∀ (p : MLPartitioner) (ir_graph : IRGraph) (st : Adjusting)
    (moves : List NodeMove) (move : NodeMove) (src_node tgt_node : MLNode) (edge : MLEdge)
    (moved : MoveResult), ir_graph.WellFormed → ir_graph.Typed → p.StartsMoves ir_graph st moves →
    move ∈ moves → Allowed st move src_node tgt_node edge → move.InProgram src_node tgt_node →
    move.apply p.names st.used src_node edge tgt_node st.all_nodes = some moved → moved.Passes →
    move.PreservesMeaning ir_graph.output_names src_node tgt_node st.all_nodes moved := by
  intro h
  have hloses : (splitPartitioner.firstMove splitModel false).any (fun c => c.Checked ∧
      "s" ∈ c.src_node.graph.output_names ∧
      Needed splitModel.output_names c.src_node c.tgt_node c.st.all_nodes "s" ∧
      ¬ (MergedGives c.src_node.graph c.move.moved_node.graph
          (getPreservedOutputs c.src_node.id c.move.moved_node.graph.name c.st.all_nodes) "s" ∨
        HeadGives c.tgt_node.graph c.move.moved_node.graph "s")) = true := by
    decide +kernel
  obtain ⟨c, hc, hres⟩ := (Option.any_eq_true _ _).mp hloses
  obtain ⟨hchecked, hout, hneeded, hlost⟩ := of_decide_eq_true hres
  obtain ⟨hstarts, hmove, hdirection, hallowed, hprogram, happly, hpasses⟩ :=
    MLPartitioner.firstMove_spec hc hchecked
  have hpreserves := h splitPartitioner splitModel c.st c.moves c.move c.src_node c.tgt_node c.edge
    c.moved (.of_checks (by decide +kernel) (by decide +kernel) (by decide +kernel)
      (by decide +kernel)) (.of_checks (by decide +kernel) (by decide +kernel)) hstarts hmove
    hallowed hprogram happly hpasses
  have hkept := (NodeMove.preserves_to_src hallowed hprogram happly hpasses hdirection).mp
    hpreserves
  exact hlost (hkept.given "s" hneeded (Or.inl hout))

end Rannc
