import Rannc.Comm.Distribute
import Rannc.Comp.SequentialRun
import Rannc.Lib.Slices

/-!
# Data parallelism

The ranks of a subgraph run its module on their rows of a batch. If the module makes of the rows of
a rank the rows of what it makes of all of them, then every rank of a pipeline holds its part of the
values of one run on the whole batch.
-/
namespace Rannc

open Connector GraphLauncher IValue RoundRobin

/-- Elementwise, without broadcasting. -/
def Tensor.add {α : Type} [Add α] (t u : Tensor α) : Option (Tensor α) :=
  if h : u.dim = t.dim then
    some { t with
      data := List.zipWith (· + ·) t.data u.data
      length_data := by rw [List.length_zipWith, t.length_data, u.length_data, h, min_self] }
  else none

theorem Tensor.add_eq_none {α : Type} [Add α] {t u : Tensor α} (h : ¬ u.dim = t.dim) :
    t.add u = none := dif_neg h

/-- `ret.add_(t)`, unless `t` is undefined -/
def addDefined (ret t : Option (Tensor ℚ)) : Option (Option (Tensor ℚ)) :=
  match t with
  | none => some ret
  | some t => ret.bind fun ret => (ret.add t).map some

@[simp] theorem addDefined_some (t u : Tensor ℚ) :
    addDefined (some t) (some u) = (t.add u).map some := rfl

def sumDefined : List (Option (Tensor ℚ)) → Option (Option (Tensor ℚ))
  | [] => none
  | ret :: tensors => tensors.foldlM addDefined ret

def sumTensorsInIValues (ivalues : List LocalIValue) : Option LocalIValue :=
  aggregateTensorsInIValues sumDefined ivalues

namespace Whole

def add : Whole → Whole → Option Whole
  | batch t, batch u => (t.add u).map batch
  | loss elem_type val, loss _ val' => some (loss elem_type fun rank => val rank + val' rank)
  | _, _ => none

def sum : List Whole → Option Whole
  | [] => none
  | w :: ws => ws.foldlM add w

variable (batch_size split_index : ℕ) (ranks : Finset ℕ) (rank : ℕ)

/-- What a rank has of a whole that can be distributed. -/
def HeldBy (w : Whole) (u : Option (Tensor ℚ)) : Prop :=
  w.Fits batch_size ∧ w.PartOf batch_size split_index ranks rank u

variable {batch_size split_index ranks rank}

section Rows

variable (hrank : rank ∈ ranks) (hrows : ranks.card ≤ batch_size)

include hrank hrows

theorem exists_rows : ∃ n, 0 < n ∧ ∀ k rest,
    (calcDistBatchDims batch_size (k * batch_size :: rest) ranks split_index).lookup rank =
      some (k * n :: rest) := by
  obtain ⟨j, hj, rfl⟩ := List.getElem_of_mem ((mem_sortRanks ranks).mpr hrank)
  have hcard : 0 < ranks.card := Finset.card_pos.mpr ⟨_, hrank⟩
  refine ⟨dealt ranks.card (split_index * batch_size) batch_size j, ?_, fun k rest => ?_⟩
  · rw [dealt_eq hcard]
    exact Nat.add_pos_left (Nat.div_pos hrows hcard) _
  · exact calcDistBatchDims_lookup _ _ (hcard.trans_le hrows) k rest hj

theorem HeldBy.exists_tensor {w : Whole} {u : Option (Tensor ℚ)}
    (h : w.HeldBy batch_size split_index ranks rank u) : ∃ v, u = some v := by
  obtain ⟨hfits, hpart⟩ := h
  cases u with
  | some v => exact ⟨v, rfl⟩
  | none =>
    cases w with
    | loss elem_type val => exact hpart.elim
    | batch t =>
      obtain ⟨-, ⟨k, rest, hdim⟩, hpos, -⟩ := hfits
      obtain ⟨n, hn, hlookup⟩ := exists_rows hrank hrows
      have hzero : rankSize batch_size t.dim ranks split_index rank = 0 := hpart
      rw [rankSize, distSize, hdim, hlookup, Option.getD_some, productDim, List.prod_cons] at hzero
      rw [hdim, productDim, List.prod_cons] at hpos
      have hk : 0 < k := Nat.pos_of_mul_pos_right (Nat.pos_of_mul_pos_right hpos)
      have := Nat.mul_pos (Nat.mul_pos hk hn) (Nat.pos_of_mul_pos_left hpos)
      omega

theorem HeldBy.dim_eq_iff {t t' u u' : Tensor ℚ}
    (h : (batch t).HeldBy batch_size split_index ranks rank (some u))
    (h' : (batch t').HeldBy batch_size split_index ranks rank (some u')) :
    u'.dim = u.dim ↔ t'.dim = t.dim := by
  obtain ⟨⟨-, ⟨k, rest, hdim⟩, -⟩, -, -, hlookup, -⟩ := h
  obtain ⟨⟨-, ⟨k', rest', hdim'⟩, -⟩, -, -, hlookup', -⟩ := h'
  obtain ⟨n, hn, hpart⟩ := exists_rows hrank hrows
  rw [hdim, hpart, Option.some_inj] at hlookup
  rw [hdim', hpart, Option.some_inj] at hlookup'
  have hb : 0 < batch_size := (Finset.card_pos.mpr ⟨_, hrank⟩).trans_le hrows
  rw [← hlookup, ← hlookup', hdim, hdim', List.cons_eq_cons, List.cons_eq_cons,
    Nat.mul_right_cancel_iff hn, Nat.mul_right_cancel_iff hb]

/-- A rank adds its parts up to its part of the sum. -/
theorem HeldBy.add {w w' : Whole} {u u' : Option (Tensor ℚ)}
    (h : w.HeldBy batch_size split_index ranks rank u)
    (h' : w'.HeldBy batch_size split_index ranks rank u') :
    Option.Rel (HeldBy batch_size split_index ranks rank) (w.add w') (addDefined u u') := by
  obtain ⟨u, rfl⟩ := h.exists_tensor hrank hrows
  obtain ⟨u', rfl⟩ := h'.exists_tensor hrank hrows
  cases w with
  | batch t =>
    cases w' with
    | batch t' =>
      have hdim := h.dim_eq_iff hrank hrows h'
      obtain ⟨hfits, helem, hgrad, hlookup, hdata⟩ := h
      obtain ⟨-, -, -, -, hdata'⟩ := h'
      rw [addDefined_some]
      change Option.Rel _ ((t.add t').map batch) _
      by_cases heq : t'.dim = t.dim
      · rw [Tensor.add, Tensor.add, dif_pos heq, dif_pos (hdim.mpr heq)]
        refine .some ⟨hfits, helem, hgrad, hlookup, ?_⟩
        dsimp only
        rw [hdata, hdata', heq]
        exact (slice_zipWith _ t.data t'.data (_, _)).symm
      · rw [Tensor.add_eq_none heq, Tensor.add_eq_none (mt hdim.mp heq)]
        exact .none
    | loss elem_type val =>
      obtain ⟨⟨-, ⟨k, rest, hdim⟩, -⟩, -, -, hlookup, -⟩ := h
      obtain ⟨n, -, hpart⟩ := exists_rows hrank hrows
      rw [hdim, hpart, Option.some_inj] at hlookup
      obtain ⟨-, -, hdim', -⟩ := h'
      have hne : ¬ u'.dim = u.dim := by
        rw [hdim', ← hlookup]
        exact (List.cons_ne_nil _ _).symm
      rw [addDefined_some, Tensor.add_eq_none hne]
      exact .none
  | loss elem_type val =>
    obtain ⟨hfits, helem, hdim, hdata⟩ := h
    cases w' with
    | batch t =>
      obtain ⟨⟨-, ⟨k, rest, hdim'⟩, -⟩, -, -, hlookup, -⟩ := h'
      obtain ⟨n, -, hpart⟩ := exists_rows hrank hrows
      rw [hdim', hpart, Option.some_inj] at hlookup
      have hne : ¬ u'.dim = u.dim := by
        rw [hdim, ← hlookup]
        exact List.cons_ne_nil _ _
      rw [addDefined_some, Tensor.add_eq_none hne]
      exact .none
    | loss elem_type' val' =>
      obtain ⟨-, -, hdim', hdata'⟩ := h'
      rw [addDefined_some, Tensor.add, dif_pos (hdim'.trans hdim.symm)]
      refine .some ⟨hfits, helem, hdim, ?_⟩
      dsimp only
      rw [hdata, hdata', List.zipWith_cons_cons, List.zipWith_nil_left]

theorem sum_related {ws : List Whole} {us : List (Option (Tensor ℚ))}
    (h : List.Forall₂ (HeldBy batch_size split_index ranks rank) ws us) :
    Option.Rel (HeldBy batch_size split_index ranks rank) (sum ws) (sumDefined us) := by
  cases h with
  | nil => exact .none
  | cons hu hus => exact optionRel_foldlM hus (fun _ _ h _ _ h' => h.add hrank hrows h') hu

end Rows

end Whole

section Whole

variable {W V : Type}

/-- The subgraphs are run once each, on wholes. -/
def wholeTurn (d : Deployment) (is_bwd : Bool) (whole : Driver W) (pass : Option W → Option W)
    (split_index : ℕ) (inputs : String → IValueMap W) (vals : String → IValueMap W)
    (sg_name : String) : IValueMap W :=
  turnValues whole split_index sg_name <|
    slotValues whole (sortRecvRoutes (d.graph_order is_bwd) (d.routes is_bwd) sg_name)
      (fun r => pass (vals r.source_graph r.location)) (inputs sg_name)

def wholeValues (d : Deployment) (is_bwd : Bool) (whole : Driver W) (pass : Option W → Option W)
    (split_index : ℕ) (inputs : String → IValueMap W) : String → IValueMap W :=
  inTurn (wholeTurn d is_bwd whole pass split_index inputs) (d.graphs is_bwd) fun _ _ => none

/-- Values under the same name. -/
def Named {α : Type} (R : W → V → Prop) (a : α × W) (b : α × V) : Prop := a.1 = b.1 ∧ R a.2 b.2

/-- A driver does on related values what `whole` does. -/
structure Simulates (R : W → V → Prop) (whole : Driver W) (drv : Driver V) (split_index : ℕ)
    (sg_name : String) : Prop where
  input_names : drv.input_names sg_name = whole.input_names sg_name
  skip : ∀ ws vs, List.Forall₂ (Named R) ws vs → drv.skip vs split_index = whole.skip ws split_index
  func : ∀ ws vs, List.Forall₂ (Named R) ws vs →
    List.Forall₂ (Named R) (whole.func sg_name ws split_index) (drv.func sg_name vs split_index)
  combine : ∀ ws vs, List.Forall₂ R ws vs → Option.Rel R (whole.combine ws) (drv.combine vs)

variable {R : W → V → Prop} {whole : Driver W} {drv : Driver V} {split_index : ℕ} {sg_name : String}

theorem lookup_related {α : Type} [BEq α] {ws : List (α × W)} {vs : List (α × V)}
    (h : List.Forall₂ (Named R) ws vs) (a : α) : Option.Rel R (ws.lookup a) (vs.lookup a) := by
  induction h with
  | nil => exact .none
  | @cons w v ws vs hwv _ ih =>
    obtain ⟨b, w⟩ := w
    obtain ⟨b', v⟩ := v
    obtain ⟨rfl, hwv⟩ := hwv
    rw [List.lookup_cons, List.lookup_cons]
    cases a == b with
    | true => exact .some hwv
    | false => exact ih

theorem slotValues_related (hsim : Simulates R whole drv split_index sg_name)
    {routes : List RouteDP} {recv : RouteDP → Option W} {recv' : RouteDP → Option V}
    (hrecv : ∀ r ∈ routes, Option.Rel R (recv r) (recv' r)) {inputs : IValueMap W}
    {inputs' : IValueMap V} (hinputs : ∀ loc, Option.Rel R (inputs loc) (inputs' loc))
    (loc : IValueLocation) :
    Option.Rel R (slotValues whole routes recv inputs loc)
      (slotValues drv routes recv' inputs' loc) := by
  refine optionRel_or (hinputs loc) ?_
  set recv_routes := routes.filter fun r => r.location = loc
  have hvals : List.Forall₂ R (recv_routes.filterMap recv) (recv_routes.filterMap recv') := by
    refine List.rel_filterMap (R := fun r r' => r = r' ∧ r ∈ routes) ?_ ?_
    · rintro r _ ⟨rfl, hr⟩
      exact hrecv r hr
    · exact List.forall₂_same.mpr fun r hr => ⟨rfl, (List.mem_filter.mp hr).1⟩
  rw [← hvals.length_eq]
  split_ifs
  · exact hsim.combine _ _ hvals
  · exact .none

theorem turnValues_related (hsim : Simulates R whole drv split_index sg_name)
    {vals : IValueMap W} {vals' : IValueMap V}
    (hvals : ∀ loc, Option.Rel R (vals loc) (vals' loc)) (loc : IValueLocation) :
    Option.Rel R (turnValues whole split_index sg_name vals loc)
      (turnValues drv split_index sg_name vals' loc) := by
  have hready : isGraphReady (drv.input_names sg_name) vals' =
      isGraphReady (whole.input_names sg_name) vals := by
    unfold isGraphReady
    rw [hsim.input_names]
    exact congrArg (List.all _) (funext fun in_name => (optionRel_isSome (hvals _)).symm)
  have hinputs : List.Forall₂ (Named R)
      ((whole.input_names sg_name).filterMap fun in_name =>
        (vals ⟨in_name, []⟩).map fun v => (in_name, v))
      ((drv.input_names sg_name).filterMap fun in_name =>
        (vals' ⟨in_name, []⟩).map fun v => (in_name, v)) := by
    rw [hsim.input_names]
    refine List.rel_filterMap (R := (· = ·)) ?_ (List.forall₂_refl _)
    rintro in_name _ rfl
    exact optionRel_map (hvals _) fun w v hwv => ⟨rfl, hwv⟩
  unfold turnValues
  rw [hready]
  split_ifs
  · refine optionRel_or (hvals loc) (lookup_related ?_ loc)
    unfold runOn
    dsimp only
    rw [hsim.skip _ _ hinputs]
    split_ifs
    · exact .nil
    · exact hsim.func _ _ hinputs
  · exact hvals loc

end Whole

section Simulation

variable {W V : Type} {d : Deployment} {is_bwd : Bool} {R : String → ℕ → W → V → Prop}
  {whole : Driver W} {pass : Option W → Option W} {drv : ℕ → Driver V} {transmit : Transmit V}
  {scomm : SComm} {k : ℕ} {whole_inputs : String → IValueMap W}
  {inputs : ℕ → String → IValueMap V}

theorem wholeTurn_dependsOnEarlier (hd : d.Routed is_bwd) :
    DependsOnEarlier (wholeTurn d is_bwd whole pass k whole_inputs) (d.graphs is_bwd) := by
  intro before g after hgraphs v w hsame
  unfold wholeTurn
  congr 1
  refine slotValues_congr (fun r hr => ?_) _
  obtain ⟨hroute, rfl⟩ := (mem_sortRecvRoutes _).1 hr
  rw [hsame _ (mem_of_graph_order_lt hgraphs (hd.topological r hroute))]

/-- The ranks run related to one run on wholes, if what is passed on stays related. -/
theorem sequentialValues_related (hd : d.RoutedOnce is_bwd)
    (hsim : ∀ g ∈ d.graphs is_bwd, ∀ rank ∈ d.allocation g,
      Simulates (R g rank) whole (drv rank) k g)
    (hinputs : ∀ g ∈ d.graphs is_bwd, ∀ rank ∈ d.allocation g, ∀ loc,
      Option.Rel (R g rank) (whole_inputs g loc) (inputs rank g loc))
    (htransmit : ∀ r ∈ d.routes is_bwd, ∀ vals : String → ℕ → IValueMap V,
      (∀ p ∈ r.sources, Option.Rel (R r.source_graph p)
        (wholeValues d is_bwd whole pass k whole_inputs r.source_graph r.location)
        (vals r.source_graph p r.location)) →
      ∀ q ∈ r.dests, Option.Rel (R r.dest_graph q)
        (pass (wholeValues d is_bwd whole pass k whole_inputs r.source_graph r.location))
        (transmit r (handedOver scomm k vals r) scomm q)) :
    ∀ g ∈ d.graphs is_bwd, ∀ rank ∈ d.allocation g, ∀ loc, Option.Rel (R g rank)
      (wholeValues d is_bwd whole pass k whole_inputs g loc)
      (sequentialValues d is_bwd drv transmit scomm k inputs g rank loc) := by
  refine order_induction fun before g after hgraphs hbefore => ?_
  intro rank hrank loc
  have hg : g ∈ d.graphs is_bwd := by simp [hgraphs]
  have hwhole : wholeValues d is_bwd whole pass k whole_inputs g =
      wholeTurn d is_bwd whole pass k whole_inputs
        (wholeValues d is_bwd whole pass k whole_inputs) g :=
    inTurn_eq hd.order_nodup (wholeTurn_dependsOnEarlier hd.toRouted) _ g hg
  have hseq : sequentialValues d is_bwd drv transmit scomm k inputs g rank =
      sequentialTurn d is_bwd drv transmit scomm k inputs
        (sequentialValues d is_bwd drv transmit scomm k inputs) g rank :=
    congrFun (inTurn_eq hd.order_nodup (sequentialTurn_dependsOnEarlier hd.toRouted) _ g hg) rank
  rw [hwhole, hseq, wholeTurn, sequentialTurn, if_pos hrank]
  have hturn := hsim g hg rank hrank
  refine turnValues_related hturn (slotValues_related hturn (fun r hr => ?_)
    (hinputs g hg rank hrank)) loc
  obtain ⟨hroute, rfl⟩ := (mem_sortRecvRoutes _).1 hr
  refine htransmit r hroute _ (fun p hp => ?_) rank ((hd.mem_dests r hroute rank).2 hrank)
  exact hbefore _ (mem_of_graph_order_lt hgraphs (hd.topological r hroute)) p
    ((hd.mem_sources r hroute p).1 hp) _

theorem wholeValues_related {U : Type} {S : W → U → Prop} {whole' : Driver U}
    {pass' : Option U → Option U} {inputs' : String → IValueMap U} (hd : d.Routed is_bwd)
    (hsim : ∀ g ∈ d.graphs is_bwd, Simulates S whole whole' k g)
    (hpass : ∀ a b, Option.Rel S a b → Option.Rel S (pass a) (pass' b))
    (hinputs : ∀ g ∈ d.graphs is_bwd, ∀ loc,
      Option.Rel S (whole_inputs g loc) (inputs' g loc)) :
    ∀ g ∈ d.graphs is_bwd, ∀ loc, Option.Rel S
      (wholeValues d is_bwd whole pass k whole_inputs g loc)
      (wholeValues d is_bwd whole' pass' k inputs' g loc) := by
  refine inTurn_related (R := fun _ vals vals' => ∀ loc, Option.Rel S (vals loc) (vals' loc))
    hd.order_nodup (wholeTurn_dependsOnEarlier hd) (wholeTurn_dependsOnEarlier hd)
    (fun before g after hgraphs v w hbefore => ?_) _ _
  have hg : g ∈ d.graphs is_bwd := by simp [hgraphs]
  refine turnValues_related (hsim g hg) (slotValues_related (hsim g hg) (fun r hr => ?_)
    (hinputs g hg))
  obtain ⟨hroute, rfl⟩ := (mem_sortRecvRoutes _).1 hr
  exact hpass _ _ (hbefore _ (mem_of_graph_order_lt hgraphs (hd.topological r hroute)) _)

end Simulation

section Parts

/-- Forward the one value that is received, backward the sum of the gradients. -/
def combineReceived (is_bwd : Bool) (recv_values : List LocalIValue) : Option LocalIValue :=
  if is_bwd then sumTensorsInIValues recv_values else recv_values.head?

def isUndefinedTensor : LocalIValue → Bool
  | .tensor none => true
  | _ => false

section Drivers

variable (is_bwd : Bool) (input_names : String → List String)

/-- What a rank runs. Forward it skips a module that would get an undefined tensor, and backward it
skips the splits that it skipped forward. -/
def rankDriver
    (func : String → List (String × LocalIValue) → ℕ → List (IValueLocation × LocalIValue))
    (skip_fwd_split : ℕ → Bool) : Driver LocalIValue where
  input_names := input_names
  func := func
  skip graph_inputs split :=
    if is_bwd then skip_fwd_split split else graph_inputs.any fun it => isUndefinedTensor it.2
  combine := combineReceived is_bwd

/-- What is run on wholes. -/
def wholeDriver
    (func : String → List (String × IValue Whole) → ℕ → List (IValueLocation × IValue Whole)) :
    Driver (IValue Whole) where
  input_names := input_names
  func := func
  skip _ _ := false
  combine recv_values :=
    if is_bwd then aggregateTensorsInIValues Whole.sum recv_values else recv_values.head?

end Drivers

/-- Only what there is is handed on. -/
def passOn {T : Type} (val : Option (IValue T)) : Option (IValue T) := val.filter fun v => !v.isNone

/-- What a rank comes to `SComm::distribute` with. -/
def handedValue (r : RouteDP) (calls : List (Option (Call LocalIValue))) (p : ℕ) : LocalIValue :=
  ((calls[r.sources.idxOf p]?).join.bind Call.value).getD (.scalar .none)

/-- The ranks of a route distribute a value if they are in the same split. -/
def distributeCalls (garbage : RouteDP → SComm → ℕ → ℕ → ℚ) (is_bwd : Bool) :
    Transmit LocalIValue := fun r calls scomm rank => do
  guard (∀ call ∈ calls, call.map (fun call => (call.batch_size, call.dist_split)) =
    some (scomm.batch_size, scomm.split_index))
  let recv_val ← distribute (garbage r scomm rank) r is_bwd scomm.batch_size
    scomm.split_index.toNat 0 (handedValue r calls) rank
  if recv_val.isNone then none else some recv_val

/-- What may be routed between subgraphs: values of batch tensors. -/
def Routable (W : IValue Whole) : Prop :=
  Distributable W ∧ ∀ w ∈ W.tensors, ∃ t, w = .batch t

variable {garbage : RouteDP → SComm → ℕ → ℕ → ℚ} {is_bwd : Bool} {scomm : SComm} {k : ℕ}
  {r : RouteDP}

theorem handedValue_handedOver {V : String → ℕ → IValueMap LocalIValue} (p : ℕ) :
    handedValue r (handedOver scomm k V r) p =
      if p ∈ r.sources then (V r.source_graph p r.location).getD (.scalar .none)
      else .scalar .none := by
  unfold handedValue handedOver
  rw [List.getElem?_map]
  split_ifs with hp
  · rw [List.getElem?_idxOf hp]
    rfl
  · rw [List.getElem?_eq_none (List.idxOf_eq_length hp).ge]
    rfl

theorem transform_distributed {W : IValue Whole} (h : ∀ w ∈ W.tensors, ∃ t, w = .batch t)
    (batch_size : ℕ) :
    W.transformTensorsInIValue (Whole.distributed batch_size k r is_bwd) = W := by
  refine transform_eq_self fun w hw => ?_
  obtain ⟨t, rfl⟩ := h w hw
  rfl

theorem isNone_of_related {T U : Type} {R : T → U → Prop} {W : IValue T} {v : IValue U}
    (h : W.Related R v) : v.isNone = W.isNone := by
  cases W with
  | tensor w =>
    obtain ⟨u, rfl, -⟩ := h
    rfl
  | tensorList ws =>
    obtain ⟨us, rfl, -⟩ := h
    rfl
  | tuple elems =>
    obtain ⟨us, rfl, -⟩ := h
    rfl
  | list elem_type elems =>
    obtain ⟨us, rfl, -⟩ := h
    rfl
  | scalar x =>
    obtain rfl : v = .scalar x := h
    cases x <;> rfl
  | scalarList l =>
    obtain rfl : v = .scalarList l := h
    rfl

theorem passOn_related {T U : Type} {R : T → U → Prop} {a : Option (IValue T)}
    {b : Option (IValue U)} (h : Option.Rel (Related R) a b) :
    Option.Rel (Related R) (passOn a) (passOn b) := by
  cases h with
  | none => exact .none
  | some hab =>
    unfold passOn
    rw [Option.filter_some, Option.filter_some, isNone_of_related hab]
    split_ifs
    · exact .some hab
    · exact .none

/-- The sources of a route hand their parts over, and the destinations get theirs. -/
theorem distributeCalls_related (hb : 1 ≤ scomm.batch_size) (hk : scomm.split_index = k)
    (hne : r.sources ≠ []) {W : Option (IValue Whole)} (hW : ∀ w, W = some w → Routable w)
    {vals : String → ℕ → IValueMap LocalIValue}
    (hvals : ∀ p ∈ r.sources, Option.Rel
      (Related (Whole.HeldBy scomm.batch_size k r.sources.toFinset p)) W
      (vals r.source_graph p r.location)) {q : ℕ} (hq : q ∈ r.dests) :
    Option.Rel (Related (Whole.HeldBy scomm.batch_size k r.dests.toFinset q)) (passOn W)
      (distributeCalls garbage is_bwd r (handedOver scomm k vals r) scomm q) := by
  obtain ⟨w, hw⟩ : ∃ w, w = W.getD (.scalar .none) := ⟨_, rfl⟩
  have hroutable : Routable w := by
    rw [hw]
    cases W with
    | none => exact ⟨trivial, fun t ht => absurd ht List.not_mem_nil⟩
    | some w' => exact hW w' rfl
  have hheld : ∀ p ∈ r.sources, w.Related
      (Whole.HeldBy scomm.batch_size k r.sources.toFinset p)
      (handedValue r (handedOver scomm k vals r) p) := by
    intro p hp
    rw [handedValue_handedOver, if_pos hp, hw]
    have hrel := hvals p hp
    revert hrel
    generalize vals r.source_graph p r.location = v
    rintro (hrel | _)
    · assumption
    · rfl
  obtain ⟨p, hp⟩ := List.exists_mem_of_ne_nil _ hne
  have hfits : ∀ x ∈ w.tensors, x.Fits scomm.batch_size :=
    (hheld p hp).forall_tensors fun _ _ h => h.1
  have hsources : ∀ s ∈ r.sources, w.Related
      (Whole.PartOf scomm.batch_size (k - 0) r.sources.toFinset s)
      (handedValue r (handedOver scomm k vals r) s) :=
    fun s hs => (hheld s hs).imp fun _ _ h => h.2
  have hothers : ∀ s ∈ r.dests, s ∉ r.sources →
      handedValue r (handedOver scomm k vals r) s = .scalar .none := by
    intro s _ hs
    rw [handedValue_handedOver, if_neg hs]
  obtain ⟨T, hT, heq⟩ := exists_doDistribute_eq (garbage r scomm q) is_bwd k 0 hb hne hroutable.1
    hfits hsources hothers
  obtain ⟨v, hv, hdest, -⟩ := distributes hb hne
    hroutable.1 hfits T _ hT hsources hothers q
  have hrel := hdest hq
  rw [transform_distributed hroutable.2] at hrel
  have hguard : ∀ call ∈ handedOver scomm k vals r,
      call.map (fun call => (call.batch_size, call.dist_split)) =
        some (scomm.batch_size, scomm.split_index) := by
    intro call hcall
    obtain ⟨p, -, rfl⟩ := List.mem_map.mp hcall
    rfl
  have hk' : scomm.split_index.toNat = k := by rw [hk, Int.toNat_natCast]
  have hresult : distributeCalls garbage is_bwd r (handedOver scomm k vals r) scomm q =
      if v.isNone then none else some v := by
    unfold distributeCalls
    rw [guard, if_pos hguard, hk', heq q, hv]
    rfl
  have hrel' := hrel.imp_of_mem (S := Whole.HeldBy scomm.batch_size k r.dests.toFinset q)
    fun x hx _ h => ⟨hfits x hx, h⟩
  rw [hresult, isNone_of_related hrel]
  cases W with
  | none =>
    subst hw
    exact .none
  | some w' =>
    obtain rfl : w = w' := hw
    change Option.Rel _ (if (!w.isNone) = true then some w else none) _
    cases w.isNone with
    | true => exact .none
    | false => exact .some hrel'

theorem not_isUndefinedTensor {batch_size split_index rank : ℕ} {ranks : Finset ℕ}
    (hrank : rank ∈ ranks) (hrows : ranks.card ≤ batch_size) {W : IValue Whole} {v : LocalIValue}
    (h : W.Related (Whole.HeldBy batch_size split_index ranks rank) v) :
    isUndefinedTensor v = false := by
  cases W with
  | tensor w =>
    obtain ⟨u, rfl, hu⟩ := h
    obtain ⟨u, rfl⟩ := hu.exists_tensor hrank hrows
    rfl
  | tensorList ws =>
    obtain ⟨us, rfl, -⟩ := h
    rfl
  | tuple elems =>
    obtain ⟨us, rfl, -⟩ := h
    rfl
  | list elem_type elems =>
    obtain ⟨us, rfl, -⟩ := h
    rfl
  | scalar x =>
    obtain rfl : v = .scalar x := h
    rfl
  | scalarList l =>
    obtain rfl : v = .scalarList l := h
    rfl

variable {input_names : String → List String}
  {module : String → List (String × IValue Whole) → ℕ → List (IValueLocation × IValue Whole)}

/-- A module makes of the rows of a rank the rows of what it makes of the whole. -/
def WorksOnRows (batch_size split_index : ℕ) (ranks : Finset ℕ) (rank : ℕ)
    (module : List (String × IValue Whole) → List (IValueLocation × IValue Whole))
    (func : List (String × LocalIValue) → List (IValueLocation × LocalIValue)) : Prop :=
  ∀ ws vs, List.Forall₂ (Named (Related (Whole.HeldBy batch_size split_index ranks rank))) ws vs →
    List.Forall₂ (Named (Related (Whole.HeldBy batch_size split_index ranks rank))) (module ws)
      (func vs)

theorem rankDriver_simulates {batch_size split_index rank : ℕ} {ranks : Finset ℕ} {g : String}
    (hrank : rank ∈ ranks) (hrows : ranks.card ≤ batch_size)
    {func : String → List (String × LocalIValue) → ℕ → List (IValueLocation × LocalIValue)}
    {skip_fwd_split : ℕ → Bool} (hskip : is_bwd = true → skip_fwd_split split_index = false)
    (hfunc : WorksOnRows batch_size split_index ranks rank (module g · split_index)
      (func g · split_index)) :
    Simulates (Related (Whole.HeldBy batch_size split_index ranks rank))
      (wholeDriver is_bwd input_names module) (rankDriver is_bwd input_names func skip_fwd_split)
      split_index g := by
  refine ⟨rfl, fun ws vs h => ?_, hfunc, fun ws vs h => ?_⟩
  · have hdefined : vs.any (fun it => isUndefinedTensor it.2) = false := by
      induction h with
      | nil => rfl
      | cons hwv _ ih =>
        rw [List.any_cons, not_isUndefinedTensor hrank hrows hwv.2, ih]
        rfl
    change (if is_bwd = true then skip_fwd_split split_index else vs.any _) = false
    split_ifs with hbwd
    · exact hskip hbwd
    · exact hdefined
  · cases is_bwd with
    | false => exact optionRel_head? h
    | true =>
      exact aggregateTensorsInIValues_related
        (fun _ _ hts => Whole.sum_related hrank hrows hts) h

/-- The ranks share the rows of the splits: there are enough, the modules work on rows, the inputs
are handed out by rows, and batches are passed on. -/
structure SharesRows (d : Deployment) (is_bwd : Bool) (batch_size : ℕ)
    (input_names : String → List String)
    (module : String → List (String × IValue Whole) → ℕ → List (IValueLocation × IValue Whole))
    (func : ℕ → String → List (String × LocalIValue) → ℕ → List (IValueLocation × LocalIValue))
    (whole_inputs : ℕ → String → IValueMap (IValue Whole))
    (graph_inputs : ℕ → ℕ → String → IValueMap LocalIValue) : Prop where
  ranks : ∀ g ∈ d.graphs is_bwd, (d.allocation g).Nonempty
  rows : ∀ k < actualPipelineNum d.pipeline_num batch_size, ∀ g ∈ d.graphs is_bwd,
    (d.allocation g).card ≤ (startSplit d.pipeline_num batch_size k).batch_size
  func : ∀ k < actualPipelineNum d.pipeline_num batch_size, ∀ g ∈ d.graphs is_bwd,
    ∀ rank ∈ d.allocation g, WorksOnRows (startSplit d.pipeline_num batch_size k).batch_size k
      (d.allocation g) rank (module g · k) (func rank g · k)
  inputs : ∀ k < actualPipelineNum d.pipeline_num batch_size, ∀ g ∈ d.graphs is_bwd,
    ∀ rank ∈ d.allocation g, ∀ loc, Option.Rel
      (Related (Whole.HeldBy (startSplit d.pipeline_num batch_size k).batch_size k
        (d.allocation g) rank)) (whole_inputs k g loc) (graph_inputs rank k g loc)
  routable : ∀ k < actualPipelineNum d.pipeline_num batch_size, ∀ r ∈ d.routes is_bwd, ∀ w,
    wholeValues d is_bwd (wholeDriver is_bwd input_names module) passOn k (whole_inputs k)
      r.source_graph r.location = some w → Routable w

/-- Every rank of a pipeline ends up with its part of the values of one run on the whole batch,
forward and backward, whatever its calls return, as long as they pair up; and there are such
runs. -/
theorem pipelined_holds_parts {d : Deployment} {batch_size : ℕ} (hd : d.RoutedOnce is_bwd)
    (hnodup : d.subgraphs.Nodup)
    (hdisjoint : ∀ g ∈ d.subgraphs, ∀ g' ∈ d.subgraphs, g ≠ g' →
      Disjoint (d.allocation g) (d.allocation g'))
    (hdelay : ∀ r ∈ d.routes is_bwd, getDelay (d.graph_order is_bwd) r = 0 ∨
      d.pipeline_num ≤ batch_size ∧ d.pipeline_num ∣ batch_size)
    {func : ℕ → String → List (String × LocalIValue) → ℕ → List (IValueLocation × LocalIValue)}
    {whole_inputs : ℕ → String → IValueMap (IValue Whole)}
    {graph_inputs : ℕ → ℕ → String → IValueMap LocalIValue}
    (hshares : SharesRows d is_bwd batch_size input_names module func whole_inputs graph_inputs)
    {skip_fwd_split : ℕ → ℕ → Bool}
    (hskip : is_bwd = true → ∀ rank k, skip_fwd_split rank k = false)
    (garbage : RouteDP → SComm → ℕ → ℕ → ℚ)
    (history : ℕ → ℕ → Option (String → IValueMap LocalIValue)) :
    (∀ env runs, Pipelined d is_bwd
        (fun rank => rankDriver is_bwd input_names (func rank) (skip_fwd_split rank))
        (distributeCalls garbage is_bwd) batch_size graph_inputs history env runs →
      ∀ k < actualPipelineNum d.pipeline_num batch_size, ∀ g ∈ d.graphs is_bwd,
        ∀ rank ∈ d.allocation g, ∀ loc, Option.Rel
          (Related (Whole.HeldBy (startSplit d.pipeline_num batch_size k).batch_size k
            (d.allocation g) rank))
          (wholeValues d is_bwd (wholeDriver is_bwd input_names module) passOn k (whole_inputs k)
            g loc)
          ((runs rank).values k g loc)) ∧
    ∃ env runs, Pipelined d is_bwd
      (fun rank => rankDriver is_bwd input_names (func rank) (skip_fwd_split rank))
      (distributeCalls garbage is_bwd) batch_size graph_inputs history env runs := by
  refine ⟨fun env runs h k hk g hg rank hrank loc => ?_, ?_⟩
  · rw [h.values_eq hd hnodup hdisjoint hdelay hk hg hrank]
    refine sequentialValues_related
      (R := fun g rank => Related (Whole.HeldBy (startSplit d.pipeline_num batch_size k).batch_size
        k (d.allocation g) rank)) hd (fun g hg rank hrank => ?_) (hshares.inputs k hk)
      (fun r hr vals hvals q hq => ?_) g hg rank hrank loc
    · exact rankDriver_simulates hrank (hshares.rows k hk g hg) (fun hbwd => hskip hbwd rank k)
        (hshares.func k hk g hg rank hrank)
    · have hsources : r.sources.toFinset = d.allocation r.source_graph :=
        Finset.ext fun p => List.mem_toFinset.trans (hd.mem_sources r hr p)
      have hdests : r.dests.toFinset = d.allocation r.dest_graph :=
        Finset.ext fun p => List.mem_toFinset.trans (hd.mem_dests r hr p)
      have hne : r.sources ≠ [] := by
        rw [← List.toFinset_nonempty_iff, hsources]
        exact hshares.ranks _ (hd.source_mem r hr)
      rw [← hsources] at hvals
      rw [← hdests]
      exact distributeCalls_related (one_le_splitBatchSizes hk) rfl hne
        (hshares.routable k hk r hr) hvals hq
  · exact exists_pipelined hd hnodup hdisjoint hdelay _ _ graph_inputs history

/-- The rows of the first subgraph are on two ranks. -/
def twoAndOne : Deployment where
  subgraphs := ["a", "b"]
  allocation sg_name := if sg_name = "a" then {0, 1} else {2}
  fwd_routes := [⟨⟨"y", []⟩, [0, 1], "a", [2], "b"⟩]
  fwd_graph_order := ["a", "b"]
  bwd_routes := []
  bwd_graph_order := ["b", "a"]
  pipeline_num := 2

/-- What comes in goes out. -/
def handThrough {V : Type} (g : String) (graph_inputs : List (String × V)) (_split : ℕ) :
    List (IValueLocation × V) :=
  graph_inputs.map fun it => (⟨if g = "a" then "y" else "z", []⟩, it.2)

def handThroughNames (g : String) : List String := if g = "a" then ["x"] else ["y"]

/-- The first subgraph starts with a row on each rank. -/
def startWith {V : Type} (v : V) (g : String) : IValueMap V :=
  fun loc => if g = "a" ∧ loc = ⟨"x", []⟩ then some v else none

theorem length_singleRow (x : ℚ) : [x].length = productDim [1, 1] := rfl

def singleRow (x : ℚ) : Tensor ℚ := ⟨.FLOAT, [1, 1], true, [x], length_singleRow x⟩

def rowOf (rank : ℕ) : LocalIValue := .tensor (some (singleRow (if rank = 0 then 5 else 7)))

theorem twoAndOne_routed : twoAndOne.RoutedOnce false := by
  refine ⟨⟨by decide, by decide, by decide, by decide, by decide, ?_, ?_, by decide⟩, by decide⟩
  all_goals simp [twoAndOne, Deployment.routes]

theorem worksOnRows_handThrough (batch_size k : ℕ) (ranks : Finset ℕ) (rank : ℕ) (g : String) :
    WorksOnRows batch_size k ranks rank (handThrough g · k) (handThrough g · k) := by
  intro ws vs h
  unfold handThrough
  rw [List.forall₂_map_left_iff, List.forall₂_map_right_iff]
  exact h.imp fun w v hwv => ⟨rfl, hwv.2⟩

theorem twoAndOne_value (k : ℕ) : wholeValues twoAndOne false
    (wholeDriver false handThroughNames handThrough) passOn k
      (startWith (.tensor (.batch pairOfRows))) "a" ⟨"y", []⟩ =
        some (.tensor (.batch pairOfRows)) := by
  rfl

theorem heldBy_rowOf {k rank : ℕ} (hk : k < 2) (hrank : rank ∈ twoAndOne.allocation "a") :
    (IValue.tensor (Whole.batch pairOfRows)).Related
      (Whole.HeldBy (startSplit 2 4 k).batch_size k (twoAndOne.allocation "a") rank)
      (rowOf rank) := by
  have hfits : (Whole.batch pairOfRows).Fits 2 := ⟨by decide, ⟨1, [1], rfl⟩, by decide, by decide⟩
  have hrank' : rank = 0 ∨ rank = 1 := by simpa [twoAndOne] using hrank
  interval_cases k
  · rcases hrank' with rfl | rfl
    · exact ⟨_, rfl, hfits, rfl, rfl, by decide +kernel, by decide +kernel⟩
    · exact ⟨_, rfl, hfits, rfl, rfl, by decide +kernel, by decide +kernel⟩
  · rcases hrank' with rfl | rfl
    · exact ⟨_, rfl, hfits, rfl, rfl, by decide +kernel, by decide +kernel⟩
    · exact ⟨_, rfl, hfits, rfl, rfl, by decide +kernel, by decide +kernel⟩

theorem twoAndOne_shares : SharesRows twoAndOne false 4 handThroughNames handThrough
    (fun _ => handThrough) (fun _ => startWith (.tensor (.batch pairOfRows)))
    (fun rank _ => startWith (rowOf rank)) where
  ranks := by decide
  rows := by decide +kernel
  func k _ g _ rank _ := worksOnRows_handThrough _ _ _ _ g
  inputs k hk g hg rank hrank loc := by
    unfold startWith
    split_ifs with h
    · obtain ⟨rfl, -⟩ := h
      exact .some (heldBy_rowOf hk hrank)
    · exact .none
  routable k _ r hr w hw := by
    obtain rfl : r = ⟨⟨"y", []⟩, [0, 1], "a", [2], "b"⟩ := List.mem_singleton.mp hr
    obtain rfl := Option.some.inj ((twoAndOne_value k).symm.trans hw)
    exact ⟨trivial, fun w hw => ⟨_, List.mem_singleton.mp hw⟩⟩

theorem pipelined_holds_parts_two :
    (∀ env runs, Pipelined twoAndOne false
        (fun _ => rankDriver false handThroughNames handThrough fun _ => false)
        (distributeCalls (fun _ _ _ _ => 9) false) 4 (fun rank _ => startWith (rowOf rank))
        (fun _ _ => none) env runs →
      ∀ k < actualPipelineNum 2 4, ∀ g ∈ ["a", "b"], ∀ rank ∈ twoAndOne.allocation g, ∀ loc,
        Option.Rel (Related (Whole.HeldBy (startSplit 2 4 k).batch_size k (twoAndOne.allocation g)
            rank))
          (wholeValues twoAndOne false (wholeDriver false handThroughNames handThrough) passOn k
            (startWith (.tensor (.batch pairOfRows))) g loc)
          ((runs rank).values k g loc)) ∧
    ∃ env runs, Pipelined twoAndOne false
      (fun _ => rankDriver false handThroughNames handThrough fun _ => false)
      (distributeCalls (fun _ _ _ _ => 9) false) 4 (fun rank _ => startWith (rowOf rank))
      (fun _ _ => none) env runs :=
  pipelined_holds_parts twoAndOne_routed (by decide) (by decide)
    (fun _ _ => Or.inr ⟨by decide, by decide⟩) twoAndOne_shares (fun _ _ _ => rfl)
    (fun _ _ _ _ => 9) (fun _ _ => none)

end Parts

end Rannc
