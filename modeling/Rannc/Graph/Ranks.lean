import Rannc.Graph.BGraph
import Rannc.Lib.OptionFold

/-!
# Ranks of operators and values

Every operator on batches, or of the loss, gets a rank of its own, and so do its outputs. Values
that are not batches are then put on the ranks of the operators that read them, and operators that
are not batches on the ranks of their outputs, from the last vertex to the first. What this amounts
to is a demand: a rank wants a vertex if the vertex leads to one that was given the rank, over
vertices that are not batches, and nothing that was given a rank comes after that.
-/
namespace Rannc

open Rannc.Digraph Relation

namespace BGraph

/-- The graph without its ranks. -/
def erase (g : BGraph) : BGraph :=
  { g with vertices := g.vertices.map fun vi => { vi with ranks := ∅ } }

section Erase

variable {g g' : BGraph}

theorem info_erase (v : ℕ) : g.erase.info v = { g.info v with ranks := ∅ } := by
  by_cases hv : v < g.vertices.length
  · simp [info, erase, hv]
  · simp [info, erase, List.getElem?_eq_none (not_lt.mp hv)]
    rfl

@[simp] theorem erase_set_ranks (v : ℕ) (s : Finset ℕ) : (g.set_ranks v s).erase = g.erase := by
  have hmodify : ((g.vertices.modify v fun vi => { vi with ranks := s }).map
      fun vi : VertexInfo => { vi with ranks := ∅ }) =
      g.vertices.map fun vi => { vi with ranks := ∅ } := by
    refine List.ext_getElem (by simp) fun i hi _ => ?_
    simp only [List.getElem_map, List.getElem_modify]
    split_ifs <;> rfl
  simp only [erase, set_ranks, hmodify]

theorem length_of_erase (h : g'.erase = g.erase) : g'.vertices.length = g.vertices.length := by
  have hlength := congrArg (fun g : BGraph => g.vertices.length) h
  simpa [erase] using hlength

theorem edges_of_erase (h : g'.erase = g.erase) : g'.edges = g.edges := by
  have hedges := congrArg BGraph.edges h
  exact hedges

theorem info_of_erase (h : g'.erase = g.erase) (v : ℕ) :
    { g'.info v with ranks := ∅ } = ({ g.info v with ranks := ∅ } : VertexInfo) := by
  rw [← info_erase, ← info_erase, h]

theorem EdgeOk_erase_iff {x y : VertexInfo} :
    EdgeOk { x with ranks := ∅ } { y with ranks := ∅ } ↔ EdgeOk x y := by
  constructor
  · rintro (⟨hx, hy, hread⟩ | ⟨hx, hy, hwrite, hbatch, hparam⟩)
    · exact .read hx hy hread
    · exact .write hx hy hwrite hbatch hparam
  · rintro (⟨hx, hy, hread⟩ | ⟨hx, hy, hwrite, hbatch, hparam⟩)
    · exact .read hx hy hread
    · exact .write hx hy hwrite hbatch hparam

theorem flow_erase_iff : g.erase.Flow ↔ g.Flow := by
  have hlength : g.erase.vertices.length = g.vertices.length := by simp [erase]
  have hids : g.erase.vertices.map VertexInfo.id = g.vertices.map VertexInfo.id := by
    simp [erase, Function.comp_def]
  constructor
  · rintro ⟨hedge, hinput, houtput, hsource, hunique, hvalue_id, hid⟩
    simp only [info_erase, hlength, hids] at hedge hinput houtput hsource hunique hvalue_id hid
    exact ⟨fun hvw => (hedge hvw).imp_right (And.imp_right EdgeOk_erase_iff.mp), hinput, houtput,
      hsource, hunique, hvalue_id, hid⟩
  · rintro ⟨hedge, hinput, houtput, hsource, hunique, hvalue_id, hid⟩
    constructor <;> simp only [info_erase, hlength, hids]
    · exact fun hvw => (hedge hvw).imp_right (And.imp_right EdgeOk_erase_iff.mpr)
    · exact hinput
    · exact houtput
    · exact hsource
    · exact hunique
    · exact hvalue_id
    · exact hid

theorem Flow.of_erase (hg : g.Flow) (h : g'.erase = g.erase) : g'.Flow :=
  flow_erase_iff.mp (h ▸ flow_erase_iff.mpr hg)

end Erase

theorem ranks_set_ranks {g : BGraph} {v : ℕ} (hv : v < g.vertices.length) (s : Finset ℕ) (w : ℕ) :
    (g.set_ranks v s).ranks w = if w = v then s else g.ranks w := by
  rw [ranks, info_set_ranks hv]
  split_ifs <;> rfl

end BGraph

/-- An operator on batches or of the loss. -/
def VertexInfo.isLabelled (vi : VertexInfo) : Bool :=
  vi.type = .NODE ∧ (vi.node.is_batch ∨ vi.node.is_criterion)

def labelOp (st : BGraph × ℕ) (v : ℕ) : BGraph × ℕ :=
  let (g, rank) := st
  if (g.info v).isLabelled then
    let g := g.set_ranks v {rank}
    ((g.target_nodes v).foldl (fun g tgt => g.set_ranks tgt {rank}) g, rank + 1)
  else (g, rank)

/-- A graph input is put on the ranks of the operators that read it; it has to be a batch. -/
def labelInput (g : BGraph) (in_v : ℕ) : Option BGraph :=
  if (g.info in_v).value.is_batch then
    some (g.set_ranks in_v (g.ranks in_v ∪ (g.target_nodes in_v).toFinset.biUnion g.ranks))
  else none

/-- The ranks that partitioning starts from. -/
def labelRanks (bg : BGraph) : Option BGraph := do
  let (bg, _) := bg.all_nodes.foldl labelOp (bg, 0)
  bg.graph_regular_input_nodes.foldlM labelInput bg

/-- The ranks of what a vertex leads to. -/
def targetRanks (g : BGraph) (v : ℕ) : Finset ℕ := (g.target_nodes v).toFinset.biUnion g.ranks

def fixRank (g : BGraph) (v : ℕ) : BGraph :=
  if (g.info v).isBatch then g
  else
    let fixed_ranks := targetRanks g v
    if fixed_ranks.Nonempty then g.set_ranks v fixed_ranks else g

def fixNonBatchRanks (sort : TopologicalSort) (g : BGraph) : BGraph :=
  (sort.sort g.vertices.length g.edges).foldl fixRank g

section Labels

variable {g g' : BGraph}

theorem isLabelled_of_erase (h : g'.erase = g.erase) (v : ℕ) :
    (g'.info v).isLabelled = (g.info v).isLabelled := by
  have hinfo := congrArg VertexInfo.isLabelled (BGraph.info_of_erase h v)
  exact hinfo

theorem isBatch_of_erase (h : g'.erase = g.erase) (v : ℕ) :
    (g'.info v).isBatch = (g.info v).isBatch := by
  have hinfo := congrArg VertexInfo.isBatch (BGraph.info_of_erase h v)
  exact hinfo

theorem type_of_erase (h : g'.erase = g.erase) (v : ℕ) :
    (g'.info v).type = (g.info v).type := by
  have hinfo := congrArg VertexInfo.type (BGraph.info_of_erase h v)
  exact hinfo

theorem type_of_isLabelled {vi : VertexInfo} (h : vi.isLabelled = true) : vi.type = .NODE := by
  simp only [VertexInfo.isLabelled, Bool.decide_and, Bool.and_eq_true, decide_eq_true_eq] at h
  exact h.1

theorem foldl_set_ranks {tgts : List ℕ} (s : Finset ℕ)
    (htgts : ∀ tgt ∈ tgts, tgt < g.vertices.length) :
    (tgts.foldl (fun g tgt => g.set_ranks tgt s) g).erase = g.erase ∧
      ∀ w, (tgts.foldl (fun g tgt => g.set_ranks tgt s) g).ranks w =
        if w ∈ tgts then s else g.ranks w := by
  induction tgts generalizing g with
  | nil => simp
  | cons tgt tgts ih =>
    have htgt : tgt < g.vertices.length := htgts tgt List.mem_cons_self
    obtain ⟨herase, hranks⟩ := ih (g := g.set_ranks tgt s) fun t ht => by
      simpa using htgts t (List.mem_cons_of_mem _ ht)
    refine ⟨herase.trans (BGraph.erase_set_ranks tgt s), fun w => ?_⟩
    rw [List.foldl_cons, hranks, BGraph.ranks_set_ranks htgt]
    by_cases hw : w = tgt <;> by_cases hmem : w ∈ tgts <;> simp [hw, hmem]

theorem labelOp_spec (hg : g.Flow) (rank : ℕ) {v : ℕ} (hv : v < g.vertices.length) :
    (labelOp (g, rank) v).1.erase = g.erase ∧ ∀ w, (labelOp (g, rank) v).1.ranks w =
      if (g.info v).isLabelled ∧ (w = v ∨ (v, w) ∈ g.edges) then {rank} else g.ranks w := by
  unfold labelOp
  by_cases hlabel : (g.info v).isLabelled = true
  · simp only [hlabel, if_true, true_and]
    have htgts : ∀ tgt ∈ (g.set_ranks v {rank}).target_nodes v,
        tgt < (g.set_ranks v {rank}).vertices.length := by
      intro tgt htgt
      simpa using (hg.edge (BGraph.mem_target_nodes.mp htgt)).2.1
    obtain ⟨herase, hranks⟩ := foldl_set_ranks {rank} htgts
    refine ⟨herase.trans (BGraph.erase_set_ranks v _), fun w => ?_⟩
    simp only [hranks, BGraph.mem_target_nodes, BGraph.edges_set_ranks, BGraph.ranks_set_ranks hv]
    by_cases hw : w = v <;> by_cases hedge : (v, w) ∈ g.edges <;> simp [hw, hedge]
  · simp [hlabel]

/-- After some vertices: their operators have the ranks of their outputs, the others none. -/
structure LabelOk (g₀ : BGraph) (done : List ℕ) (g : BGraph) : Prop where
  erase : g.erase = g₀.erase
  labelled : ∀ v ∈ done, (g.info v).isLabelled = true →
    ∀ w, (v, w) ∈ g.edges → g.ranks w = g.ranks v
  unlabelled : ∀ v < g.vertices.length, (g.info v).type = .NODE →
    ¬((g.info v).isLabelled = true ∧ v ∈ done) → g.ranks v = ∅

theorem labelOp_ok {g₀ : BGraph} {done : List ℕ} (rank : ℕ) {v : ℕ} (hg₀ : g₀.Flow)
    (h : LabelOk g₀ done g) (hv : v < g.vertices.length) (hnew : v ∉ done) :
    LabelOk g₀ (done ++ [v]) (labelOp (g, rank) v).1 := by
  have hg : g.Flow := hg₀.of_erase h.erase
  obtain ⟨herase, hranks⟩ := labelOp_spec hg rank hv
  have hedges := BGraph.edges_of_erase herase
  have hlength := BGraph.length_of_erase herase
  have hnode : ∀ {x}, (g.info v).isLabelled = true → (g.info x).type = .NODE → x ≠ v →
      ¬(x = v ∨ (v, x) ∈ g.edges) := by
    rintro x hlabel hx hne (heq | hvx)
    · exact hne heq
    · exact (hg.edge hvx).2.2.type_ne ((type_of_isLabelled hlabel).trans hx.symm)
  refine ⟨herase.trans h.erase, ?_, ?_⟩
  · intro u hu hlabel w huw
    rw [isLabelled_of_erase herase] at hlabel
    rw [hedges] at huw
    have hunode := type_of_isLabelled hlabel
    have hwvalue : (g.info w).type ≠ .NODE := fun hw =>
      (hg.edge huw).2.2.type_ne (hunode.trans hw.symm)
    rw [hranks, hranks]
    by_cases huv : u = v
    · subst huv
      simp [hlabel, huw]
    · have hudone : u ∈ done := by simpa [huv] using hu
      by_cases hvlabel : (g.info v).isLabelled = true
      · have hvnode := type_of_isLabelled hvlabel
        have hwtype : (g.info w).type = .VALUE := by
          cases hw : (g.info w).type with
          | VALUE => rfl
          | NODE => exact absurd hw hwvalue
        have hw : ¬(w = v ∨ (v, w) ∈ g.edges) := by
          rintro (rfl | hvw)
          · exact hwvalue hvnode
          · exact huv (hg.unique huw hvw hwtype)
        rw [if_neg fun hc => hw hc.2, if_neg fun hc => hnode hvlabel hunode huv hc.2]
        exact h.labelled u hudone hlabel w huw
      · rw [if_neg fun hc => hvlabel hc.1, if_neg fun hc => hvlabel hc.1]
        exact h.labelled u hudone hlabel w huw
  · intro u hu hunode hnot
    rw [isLabelled_of_erase herase] at hnot
    rw [type_of_erase herase] at hunode
    rw [hlength] at hu
    rw [hranks, if_neg]
    · refine h.unlabelled u hu hunode fun hc => hnot ⟨hc.1, ?_⟩
      exact List.mem_append_left _ hc.2
    · rintro ⟨hvlabel, hc⟩
      by_cases huv : u = v
      · subst huv
        exact hnot ⟨hvlabel, List.mem_append_right _ List.mem_cons_self⟩
      · exact hnode hvlabel hunode huv hc

theorem labelOps_ok {g₀ : BGraph} {done vs : List ℕ} (rank : ℕ) (hg₀ : g₀.Flow)
    (h : LabelOk g₀ done g) (hvs : ∀ v ∈ vs, v < g₀.vertices.length) (hnodup : (done ++ vs).Nodup) :
    LabelOk g₀ (done ++ vs) (vs.foldl labelOp (g, rank)).1 := by
  induction vs generalizing g done rank with
  | nil => simpa using h
  | cons v vs ih =>
    have hv : v < g.vertices.length := by
      rw [BGraph.length_of_erase h.erase]
      exact hvs v List.mem_cons_self
    have hnew : v ∉ done := by
      intro hmem
      exact (List.nodup_append.mp hnodup).2.2 v hmem v List.mem_cons_self rfl
    have hstep := labelOp_ok rank hg₀ h hv hnew
    have hrest := ih (labelOp (g, rank) v).2 hstep
      (fun w hw => hvs w (List.mem_cons_of_mem _ hw)) (by simpa using hnodup)
    simpa using hrest

/-- What the labels are like: an operator with ranks shares them with its outputs. -/
structure Labelled (g : BGraph) : Prop where
  labelled : ∀ v, (g.info v).isLabelled = true → ∀ w, (v, w) ∈ g.edges → g.ranks w = g.ranks v
  unlabelled : ∀ v, (g.info v).type = .NODE → (g.info v).isLabelled = false → g.ranks v = ∅

/-- The ranks of a graph input say nothing about operators and their outputs. -/
theorem labelInput_ok {in_v : ℕ} (hlabelled : Labelled g)
    (hv : in_v < g.vertices.length) (hvalue : (g.info in_v).type = .VALUE)
    (hsource : ∀ v, (v, in_v) ∉ g.edges) (h : labelInput g in_v = some g') :
    g'.erase = g.erase ∧ Labelled g' := by
  unfold labelInput at h
  split_ifs at h
  obtain rfl := Option.some.inj h
  have herase := BGraph.erase_set_ranks (g := g) in_v
    (g.ranks in_v ∪ (g.target_nodes in_v).toFinset.biUnion g.ranks)
  refine ⟨herase, ?_, ?_⟩
  · intro v hlabel w hvw
    rw [isLabelled_of_erase herase] at hlabel
    have hne : v ≠ in_v := by
      rintro rfl
      exact absurd (hvalue.symm.trans (type_of_isLabelled hlabel)) nofun
    have hw : w ≠ in_v := by
      rintro rfl
      exact hsource v hvw
    rw [BGraph.ranks_set_ranks hv, BGraph.ranks_set_ranks hv, if_neg hne, if_neg hw]
    exact hlabelled.labelled v hlabel w hvw
  · intro v hnode hlabel
    rw [type_of_erase herase] at hnode
    rw [isLabelled_of_erase herase] at hlabel
    have hne : v ≠ in_v := by
      rintro rfl
      exact absurd (hvalue.symm.trans hnode) nofun
    rw [BGraph.ranks_set_ranks hv, if_neg hne]
    exact hlabelled.unlabelled v hnode hlabel

theorem labelInputs_ok {inputs : List ℕ} (hlabelled : Labelled g)
    (hinputs : ∀ v ∈ inputs, v < g.vertices.length ∧ (g.info v).type = .VALUE ∧
      ∀ u, (u, v) ∉ g.edges) (h : inputs.foldlM labelInput g = some g') :
    g'.erase = g.erase ∧ Labelled g' := by
  induction inputs generalizing g with
  | nil =>
    obtain rfl := Option.some.inj h
    exact ⟨rfl, hlabelled⟩
  | cons v inputs ih =>
    rw [List.foldlM_cons] at h
    obtain ⟨g₁, hstep, hrest⟩ := Option.bind_eq_some_iff.mp h
    obtain ⟨hv, hvalue, hsource⟩ := hinputs v List.mem_cons_self
    obtain ⟨herase, hlabelled₁⟩ := labelInput_ok hlabelled hv hvalue hsource hstep
    obtain ⟨herase', hlabelled'⟩ := ih hlabelled₁ (fun w hw => by
      rw [BGraph.length_of_erase herase, type_of_erase herase, BGraph.edges_of_erase herase]
      exact hinputs w (List.mem_cons_of_mem _ hw)) hrest
    exact ⟨herase'.trans herase, hlabelled'⟩

theorem labelRanks_ok {bg : BGraph} (hbg : bg.Flow)
    (hempty : ∀ v < bg.vertices.length, bg.ranks v = ∅) (h : labelRanks bg = some g) :
    g.erase = bg.erase ∧ Labelled g := by
  unfold labelRanks at h
  dsimp only at h
  have hstart : LabelOk bg [] bg := ⟨rfl, by simp, fun v hv _ _ => hempty v hv⟩
  have hops : LabelOk bg ([] ++ bg.all_nodes) (bg.all_nodes.foldl labelOp (bg, 0)).1 :=
    labelOps_ok 0 hbg hstart (fun v hv => List.mem_range.mp hv) List.nodup_range
  set g₁ := (bg.all_nodes.foldl labelOp (bg, 0)).1
  have hlength := BGraph.length_of_erase hops.erase
  have hlt : ∀ {v}, (g₁.info v).type = .NODE → v < bg.vertices.length := by
    intro v hv
    by_contra hge
    rw [type_of_erase hops.erase, BGraph.info_of_ge (not_lt.mp hge)] at hv
    exact absurd hv nofun
  have hlabelled : Labelled g₁ := by
    refine ⟨fun v hlabel w hvw => ?_, fun v hnode hlabel => ?_⟩
    · have hv := hlt (type_of_isLabelled hlabel)
      exact hops.labelled v (List.mem_range.mpr hv) hlabel w hvw
    · refine hops.unlabelled v (hlength ▸ hlt hnode) hnode fun hc => ?_
      exact absurd (hlabel.symm.trans hc.1) nofun
  obtain ⟨herase, hres⟩ := labelInputs_ok hlabelled (fun v hv => by
    obtain ⟨hmem, hsource⟩ := List.mem_filter.mp hv
    simp only [decide_eq_true_eq] at hsource
    refine ⟨List.mem_range.mp hmem, hsource.2.1, fun u hu => ?_⟩
    have hmem := BGraph.mem_source_nodes.mpr hu
    rw [hsource.1] at hmem
    exact absurd hmem List.not_mem_nil) h
  exact ⟨herase.trans hops.erase, hres⟩

theorem labelOp_nonempty (hg : g.Flow) (rank : ℕ) {v : ℕ} (hv : v < g.vertices.length) {w : ℕ}
    (hw : (g.ranks w).Nonempty ∨ w = v ∧ (g.info v).isLabelled = true) :
    ((labelOp (g, rank) v).1.ranks w).Nonempty := by
  rw [(labelOp_spec hg rank hv).2]
  split_ifs with hlabel
  · exact Finset.singleton_nonempty rank
  · refine hw.resolve_right ?_
    rintro ⟨rfl, hlabelled⟩
    exact hlabel ⟨hlabelled, Or.inl rfl⟩

theorem labelOps_nonempty {vs : List ℕ} (hg : g.Flow) (rank : ℕ)
    (hvs : ∀ v ∈ vs, v < g.vertices.length) {w : ℕ}
    (hw : (g.ranks w).Nonempty ∨ w ∈ vs ∧ (g.info w).isLabelled = true) :
    ((vs.foldl labelOp (g, rank)).1.ranks w).Nonempty := by
  induction vs generalizing g rank with
  | nil => exact hw.resolve_right fun h => List.not_mem_nil h.1
  | cons v vs ih =>
    have hv : v < g.vertices.length := hvs v List.mem_cons_self
    obtain ⟨herase, -⟩ := labelOp_spec hg rank hv
    refine ih (hg.of_erase herase) (labelOp (g, rank) v).2 ?_ ?_
    · intro u hu
      rw [BGraph.length_of_erase herase]
      exact hvs u (List.mem_cons_of_mem _ hu)
    · rw [isLabelled_of_erase herase]
      rcases hw with hw | ⟨hmem, hlabel⟩
      · exact Or.inl (labelOp_nonempty hg rank hv (Or.inl hw))
      · cases List.mem_cons.mp hmem with
        | inl heq => exact Or.inl (labelOp_nonempty hg rank hv (Or.inr ⟨heq, heq ▸ hlabel⟩))
        | inr hmem => exact Or.inr ⟨hmem, hlabel⟩

/-- Every labelled operator has a rank. -/
theorem labelRanks_nonempty {bg : BGraph} (hbg : bg.Flow) (h : labelRanks bg = some g) {v : ℕ}
    (hlabel : (bg.info v).isLabelled = true) : (g.ranks v).Nonempty := by
  have hv : v < bg.vertices.length := by
    by_contra hge
    rw [BGraph.info_of_ge (not_lt.mp hge)] at hlabel
    exact absurd hlabel (by decide)
  unfold labelRanks at h
  dsimp only at h
  have hops : ((bg.all_nodes.foldl labelOp (bg, 0)).1.ranks v).Nonempty :=
    labelOps_nonempty hbg 0 (fun u hu => List.mem_range.mp hu)
      (Or.inr ⟨List.mem_range.mpr hv, hlabel⟩)
  refine foldlM_invariant (P := fun g : BGraph => (g.ranks v).Nonempty)
    (fun g in_v g' _ hg hstep => ?_) hops h
  unfold labelInput at hstep
  split_ifs at hstep
  obtain rfl := Option.some.inj hstep
  by_cases hin : in_v < g.vertices.length
  · rw [BGraph.ranks_set_ranks hin]
    split_ifs with heq
    · exact (heq ▸ hg).mono Finset.subset_union_left
    · exact hg
  · have hsame : g.set_ranks in_v (g.ranks in_v ∪
        (g.target_nodes in_v).toFinset.biUnion g.ranks) = g := by
      unfold BGraph.set_ranks
      rw [List.modify_eq_self (not_lt.mp hin)]
    rw [hsame]
    exact hg

end Labels

section Fix

variable {g g' : BGraph}

theorem fixRank_erase (g : BGraph) (v : ℕ) : (fixRank g v).erase = g.erase := by
  unfold fixRank
  dsimp only
  split_ifs
  · rfl
  · exact BGraph.erase_set_ranks v _
  · rfl

theorem fixRank_ranks {v : ℕ} (hv : v < g.vertices.length) (w : ℕ) :
    (fixRank g v).ranks w =
      if w = v ∧ (g.info v).isBatch = false ∧ (targetRanks g v).Nonempty then targetRanks g v
      else g.ranks w := by
  by_cases hfix : (g.info v).isBatch = false ∧ (targetRanks g v).Nonempty
  · have hset : fixRank g v = g.set_ranks v (targetRanks g v) := by
      simp [fixRank, hfix.1, hfix.2]
    rw [hset, BGraph.ranks_set_ranks hv]
    simp [hfix]
  · have hskip : fixRank g v = g := by
      unfold fixRank
      dsimp only
      split_ifs with hbatch hne
      · rfl
      · exact absurd ⟨by simpa using hbatch, hne⟩ hfix
      · rfl
    rw [hskip, if_neg fun hc => hfix hc.2]

theorem mem_targetRanks {v r : ℕ} :
    r ∈ targetRanks g v ↔ ∃ w, (v, w) ∈ g.edges ∧ r ∈ g.ranks w := by
  simp [targetRanks]

theorem targetRanks_congr (hedges : g'.edges = g.edges) {v : ℕ}
    (h : ∀ w, (v, w) ∈ g.edges → g'.ranks w = g.ranks w) : targetRanks g' v = targetRanks g v := by
  ext r
  rw [mem_targetRanks, mem_targetRanks, hedges]
  exact exists_congr fun w => and_congr_right fun hw => by rw [h w hw]

/-- Vertices in an order in which edges lead back: each gets the ranks of what it leads to. -/
theorem fixRanks_spec {vs : List ℕ} (hvs : ∀ v ∈ vs, v < g.vertices.length) (hnodup : vs.Nodup)
    (horder : vs.Pairwise fun a b => (a, b) ∉ g.edges) (hself : ∀ v, (v, v) ∉ g.edges) :
    (vs.foldl fixRank g).erase = g.erase ∧
      (∀ w, w ∉ vs → (vs.foldl fixRank g).ranks w = g.ranks w) ∧
      ∀ v ∈ vs, (vs.foldl fixRank g).ranks v =
        if (g.info v).isBatch = false ∧ (targetRanks (vs.foldl fixRank g) v).Nonempty then
          targetRanks (vs.foldl fixRank g) v
        else g.ranks v := by
  induction vs generalizing g with
  | nil => simp
  | cons v vs ih =>
    have hv : v < g.vertices.length := hvs v List.mem_cons_self
    obtain ⟨hnew, hnodup⟩ := List.nodup_cons.mp hnodup
    obtain ⟨hlater, horder⟩ := List.pairwise_cons.mp horder
    have herase := fixRank_erase g v
    have hedges := BGraph.edges_of_erase herase
    obtain ⟨herase', hframe, hfixed⟩ := ih (g := fixRank g v)
      (fun w hw => BGraph.length_of_erase herase ▸ hvs w (List.mem_cons_of_mem _ hw)) hnodup
      (hedges ▸ horder) (hedges ▸ hself)
    rw [List.foldl_cons]
    set res := vs.foldl fixRank (fixRank g v)
    refine ⟨herase'.trans herase, fun w hw => ?_, fun w hw => ?_⟩
    · rw [List.mem_cons, not_or] at hw
      rw [hframe w hw.2, fixRank_ranks hv, if_neg fun hc => hw.1 hc.1]
    · by_cases hwv : w = v
      · subst hwv
        have htargets : targetRanks res w = targetRanks g w := by
          refine targetRanks_congr ((BGraph.edges_of_erase herase').trans hedges) fun u hu => ?_
          have hune : u ≠ w := fun h => hself w (h ▸ hu)
          rw [hframe u fun hmem => hlater u hmem hu, fixRank_ranks hv, if_neg fun hc => hune hc.1]
        rw [hframe w hnew, fixRank_ranks hv, htargets]
        simp
      · have hwvs : w ∈ vs := by simpa [hwv] using hw
        rw [hfixed w hwvs, isBatch_of_erase herase, fixRank_ranks hv,
          if_neg (c := w = v ∧ _) fun hc => hwv hc.1]

/-- Ranks that are consistent: a vertex that is not a batch has the ranks of what it leads to, if
there are any, and other vertices have their labels. -/
structure Fixed (g g' : BGraph) : Prop where
  erase : g'.erase = g.erase
  ranks : ∀ v, g'.ranks v =
    if (g.info v).isBatch = false ∧ (targetRanks g' v).Nonempty then targetRanks g' v
    else g.ranks v

theorem BGraph.Flow.acyclic (hg : g.Flow) : Acyclic (Edge g.edges) :=
  acyclic_of_rank (fun v => v) fun hab => (hg.edge hab).1

theorem fixNonBatchRanks_fixed_of_acyclic (sort : TopologicalSort)
    (hacyclic : Acyclic (Edge g.edges))
    (hbound : ∀ {v w}, (v, w) ∈ g.edges → v < g.vertices.length) :
    Fixed g (fixNonBatchRanks sort g) := by
  have hperm := sort.perm (n := g.vertices.length) hacyclic
  have hmem : ∀ {v}, v ∈ sort.sort g.vertices.length g.edges ↔ v < g.vertices.length := by
    intro v
    rw [hperm.mem_iff, List.mem_range]
  obtain ⟨herase, hframe, hfixed⟩ := fixRanks_spec (fun v hv => hmem.mp hv)
    (hperm.nodup_iff.mpr List.nodup_range) (sort.order hacyclic)
    (fun v hv => hacyclic.irrefl v hv)
  refine ⟨herase, fun v => ?_⟩
  by_cases hv : v < g.vertices.length
  · exact hfixed v (hmem.mpr hv)
  · rw [if_neg]
    · exact hframe v fun h => hv (hmem.mp h)
    · rintro ⟨-, r, hr⟩
      obtain ⟨w, hvw, -⟩ := mem_targetRanks.mp hr
      have hvw' : (v, w) ∈ g.edges := BGraph.edges_of_erase herase ▸ hvw
      exact hv (hbound hvw')

theorem fixNonBatchRanks_fixed (sort : TopologicalSort) (hg : g.Flow) :
    Fixed g (fixNonBatchRanks sort g) :=
  fixNonBatchRanks_fixed_of_acyclic sort hg.acyclic fun hvw =>
    (hg.edge hvw).1.trans (hg.edge hvw).2.1

end Fix

/-- What a vertex that is not a batch leads to. -/
def Feeds (g : BGraph) (v w : ℕ) : Prop := (g.info v).isBatch = false ∧ (v, w) ∈ g.edges

/-- A rank that was given to something that the vertex feeds, with nothing given a rank after it. -/
def Demand (g : BGraph) (v r : ℕ) : Prop :=
  ∃ w, ReflTransGen (Feeds g) v w ∧ r ∈ g.ranks w ∧ ∀ x, TransGen (Feeds g) w x → g.ranks x = ∅

section Demand

variable {g g' : BGraph}

theorem BGraph.Flow.induction (hg : g.Flow) {P : ℕ → Prop}
    (h : ∀ v, (∀ w, (v, w) ∈ g.edges → P w) → P v) (v : ℕ) : P v := by
  by_cases hv : v < g.vertices.length
  · induction hn : g.vertices.length - v using Nat.strong_induction_on generalizing v with
    | _ n ih =>
      refine h v fun w hvw => ?_
      obtain ⟨hlt, hw, -⟩ := hg.edge hvw
      exact ih (g.vertices.length - w) (by omega) w hw rfl
  · refine h v fun w hvw => ?_
    obtain ⟨hlt, hw, -⟩ := hg.edge hvw
    omega

/-- A vertex has ranks when it feeds something that was given a rank. -/
theorem Fixed.nonempty_iff (hg : g.Flow) (h : Fixed g g') (v : ℕ) :
    (g'.ranks v).Nonempty ↔ ∃ w, ReflTransGen (Feeds g) v w ∧ (g.ranks w).Nonempty := by
  induction v using hg.induction with
  | h v ih =>
    rw [h.ranks v]
    split_ifs with hfix
    · refine iff_of_true hfix.2 ?_
      obtain ⟨r, hr⟩ := hfix.2
      obtain ⟨w, hvw, hrw⟩ := mem_targetRanks.mp hr
      rw [BGraph.edges_of_erase h.erase] at hvw
      obtain ⟨x, hwx, hx⟩ := (ih w hvw).mp ⟨r, hrw⟩
      exact ⟨x, .head ⟨hfix.1, hvw⟩ hwx, hx⟩
    · constructor
      · exact fun hlabel => ⟨v, .refl, hlabel⟩
      · rintro ⟨w, hvw, hw⟩
        rcases ReflTransGen.cases_head hvw with rfl | ⟨x, hvx, hxw⟩
        · exact hw
        · obtain ⟨r, hr⟩ := (ih x hvx.2).mpr ⟨w, hxw, hw⟩
          have hvx' : (v, x) ∈ g'.edges := (BGraph.edges_of_erase h.erase).symm ▸ hvx.2
          exact absurd ⟨hvx.1, r, mem_targetRanks.mpr ⟨x, hvx', hr⟩⟩ hfix

theorem Fixed.mem_ranks_iff (hg : g.Flow) (h : Fixed g g') (v r : ℕ) :
    r ∈ g'.ranks v ↔ Demand g v r := by
  have hedges := BGraph.edges_of_erase h.erase
  have htarget : ∀ {v x w}, Feeds g v x → ReflTransGen (Feeds g) x w → (g.ranks w).Nonempty →
      (g.info v).isBatch = false ∧ (targetRanks g' v).Nonempty := by
    intro v x w hvx hxw hw
    obtain ⟨s, hs⟩ := (h.nonempty_iff hg x).mpr ⟨w, hxw, hw⟩
    exact ⟨hvx.1, s, mem_targetRanks.mpr ⟨x, hedges ▸ hvx.2, hs⟩⟩
  induction v using hg.induction with
  | h v ih =>
    rw [h.ranks v]
    split_ifs with hfix
    · constructor
      · intro hr
        obtain ⟨x, hvx, hx⟩ := mem_targetRanks.mp hr
        rw [hedges] at hvx
        obtain ⟨w, hxw, hw, hlast⟩ := (ih x hvx).mp hx
        exact ⟨w, .head ⟨hfix.1, hvx⟩ hxw, hw, hlast⟩
      · rintro ⟨w, hvw, hw, hlast⟩
        rcases ReflTransGen.cases_head hvw with rfl | ⟨x, hvx, hxw⟩
        · obtain ⟨s, hs⟩ := hfix.2
          obtain ⟨x, hvx, hx⟩ := mem_targetRanks.mp hs
          rw [hedges] at hvx
          obtain ⟨y, hxy, hy⟩ := (h.nonempty_iff hg x).mp ⟨s, hx⟩
          have hempty := hlast y (.head' ⟨hfix.1, hvx⟩ hxy)
          exact absurd hy (by rw [hempty]; exact Finset.not_nonempty_empty)
        · refine mem_targetRanks.mpr ⟨x, hedges ▸ hvx.2, ?_⟩
          exact (ih x hvx.2).mpr ⟨w, hxw, hw, hlast⟩
    · constructor
      · intro hr
        refine ⟨v, .refl, hr, fun y hy => ?_⟩
        obtain ⟨x, hvx, hxy⟩ := TransGen.head'_iff.mp hy
        rw [← Finset.not_nonempty_iff_eq_empty]
        exact fun hne => hfix (htarget hvx hxy hne)
      · rintro ⟨w, hvw, hw, hlast⟩
        rcases ReflTransGen.cases_head hvw with rfl | ⟨x, hvx, hxw⟩
        · exact hw
        · exact absurd (htarget hvx hxw ⟨r, hw⟩) hfix

end Demand

end Rannc
