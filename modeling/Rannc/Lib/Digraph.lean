import Mathlib.Data.List.Basic
import Mathlib.Logic.Relation
import Mathlib.Tactic

/-!
# Acyclic relations and contractions

Contracting an edge of an acyclic relation keeps it acyclic just where no path goes around the
edge. When disjoint edges are contracted one after the other, the result is acyclic just where this
holds of each of them in the relation contracted before: the cycle that a path around an edge makes
is not undone by contractions of other edges.
-/
namespace Rannc.Digraph

open Relation

section Relations

variable {α β γ : Type*} {r : α → α → Prop}

def Acyclic (r : α → α → Prop) : Prop := ∀ a, ¬ TransGen r a a

/-- The classes of `f` with the steps between different ones. -/
def contract (r : α → α → Prop) (f : α → β) (x y : β) : Prop :=
  x ≠ y ∧ ∃ a b, r a b ∧ f a = x ∧ f b = y

theorem contract_apply {f : α → β} {a b : α} (h : r a b) (hne : f a ≠ f b) :
    contract r f (f a) (f b) :=
  ⟨hne, a, b, h, rfl, rfl⟩

theorem contract_contract (r : α → α → Prop) (f : α → β) (g : β → γ) :
    contract (contract r f) g = contract r (g ∘ f) := by
  funext x y
  refine propext ⟨?_, ?_⟩
  · rintro ⟨hne, _, _, ⟨-, a, b, hr, rfl, rfl⟩, rfl, rfl⟩
    exact ⟨hne, a, b, hr, rfl, rfl⟩
  · rintro ⟨hne, a, b, hr, rfl, rfl⟩
    exact ⟨hne, f a, f b, contract_apply hr fun h => hne (congrArg g h), rfl, rfl⟩

theorem reflTransGen_contract (f : α → β) {a b : α} (h : ReflTransGen r a b) :
    ReflTransGen (contract r f) (f a) (f b) := by
  induction h with
  | refl => exact .refl
  | @tail b c _ hbc ih =>
    by_cases hne : f b = f c
    · rwa [← hne]
    · exact ih.tail (contract_apply hbc hne)

/-- A contraction is acyclic by its classes alone. -/
theorem Acyclic.contract_congr {f : α → β} {g : α → γ} {P : α → Prop}
    (hP : ∀ {a b}, r a b → P a ∧ P b) (hfg : ∀ {a b}, P a → P b → (f a = f b ↔ g a = g b))
    (h : Acyclic (contract r f)) : Acyclic (contract r g) := by
  have hlift : ∀ {x y}, TransGen (contract r g) x y → ∀ a, P a → g a = x →
      ∃ b, P b ∧ g b = y ∧ TransGen (contract r f) (f a) (f b) := by
    intro x y hxy
    have hstep : ∀ {x y}, contract r g x y → ∀ a, P a → g a = x →
        ∃ b, P b ∧ g b = y ∧ contract r f (f a) (f b) := by
      rintro x y ⟨hne, a', b, hr, rfl, rfl⟩ a ha hga
      obtain ⟨ha', hb⟩ := hP hr
      refine ⟨b, hb, rfl, (hfg ha' ha).mpr hga.symm ▸ contract_apply hr ?_⟩
      exact fun hab => hne ((hfg ha' hb).mp hab)
    induction hxy with
    | single hxy =>
      intro a ha hga
      obtain ⟨b, hb, hgb, hab⟩ := hstep hxy a ha hga
      exact ⟨b, hb, hgb, .single hab⟩
    | tail _ hyz ih =>
      intro a ha hga
      obtain ⟨b, hb, hgb, hab⟩ := ih a ha hga
      obtain ⟨c, hc, hgc, hbc⟩ := hstep hyz b hb hgb
      exact ⟨c, hc, hgc, hab.tail hbc⟩
  intro x hx
  obtain ⟨_, ⟨_, a, _, hr, hga, _⟩, _⟩ := TransGen.head'_iff.mp hx
  obtain ⟨b, hb, hgb, hab⟩ := hlift hx a (hP hr).1 hga
  rw [(hfg hb (hP hr).1).mpr (hgb.trans hga.symm)] at hab
  exact h _ hab

theorem not_acyclic_contract {f : α → β} {a b c : α} (hac : ReflTransGen r a c)
    (hcb : ReflTransGen r c b) (hab : f a = f b) (hne : f c ≠ f a) :
    ¬ Acyclic (contract r f) := by
  intro h
  have hforth := reflTransGen_contract f hac
  have hback := hab ▸ reflTransGen_contract f hcb
  rcases reflTransGen_iff_eq_or_transGen.mp hforth with heq | hforth
  · exact hne heq
  · exact h _ (hforth.trans_left hback)

theorem acyclic_of_rank (rank : α → ℕ) (h : ∀ {a b}, r a b → rank a < rank b) : Acyclic r := by
  have hlt : ∀ {a b}, TransGen r a b → rank a < rank b := by
    intro a b hab
    induction hab with
    | single hab => exact h hab
    | tail _ hbc ih => exact ih.trans (h hbc)
  exact fun a ha => lt_irrefl _ (hlt ha)

theorem Acyclic.irrefl (h : Acyclic r) (a : α) : ¬ r a a := fun haa => h a (.single haa)

variable [DecidableEq α] {a b : α}

/-- Put `b` into the class of `a`. -/
def mergeInto (a b x : α) : α := if x = b then a else x

/-- A path goes around the edge from `a` to `b`. -/
def Bypass (r : α → α → Prop) (a b : α) : Prop :=
  ∃ c, c ≠ b ∧ r a c ∧ ReflTransGen r c b

@[simp] theorem mergeInto_right (a b : α) : mergeInto a b b = a := if_pos rfl

theorem mergeInto_of_ne {x : α} (h : x ≠ b) : mergeInto a b x = x := if_neg h

@[simp] theorem mergeInto_left (a b : α) : mergeInto a b a = a := by
  unfold mergeInto
  split_ifs <;> rfl

theorem mergeInto_ne (hab : a ≠ b) (x : α) : mergeInto a b x ≠ b := by
  unfold mergeInto
  split_ifs with h
  · exact hab
  · exact h

theorem mergeInto_eq_left {x : α} (h : mergeInto a b x = a) : x = a ∨ x = b := by
  unfold mergeInto at h
  split_ifs at h with hx
  · exact Or.inr hx
  · exact Or.inl h

theorem eq_of_mergeInto_ne {x y : α} (h : mergeInto a b x = y) (hy : y ≠ a) : x = y := by
  unfold mergeInto at h
  split_ifs at h
  · exact absurd h.symm hy
  · exact h

theorem exists_transGen_of_contract {x : α} (hx : x ≠ a)
    (h : TransGen (contract r (mergeInto a b)) x a) : ∃ v, (v = a ∨ v = b) ∧ TransGen r x v := by
  induction h using TransGen.head_induction_on with
  | single hstep =>
    obtain ⟨-, u, v, hr, hu, hv⟩ := hstep
    obtain rfl := eq_of_mergeInto_ne hu hx
    exact ⟨v, mergeInto_eq_left hv, .single hr⟩
  | @head x z hstep _ ih =>
    obtain ⟨-, u, v, hr, hu, hv⟩ := hstep
    obtain rfl := eq_of_mergeInto_ne hu hx
    by_cases hz : z = a
    · exact ⟨v, mergeInto_eq_left (hv.trans hz), .single hr⟩
    · obtain rfl := eq_of_mergeInto_ne hv hz
      obtain ⟨w, hw, hvw⟩ := ih hz
      exact ⟨w, hw, hvw.head hr⟩

theorem transGen_or_through {x y : α} (hx : x ≠ a) (hy : y ≠ a)
    (h : TransGen (contract r (mergeInto a b)) x y) :
    TransGen r x y ∨ TransGen (contract r (mergeInto a b)) x a ∧
      TransGen (contract r (mergeInto a b)) a y := by
  induction h using TransGen.head_induction_on with
  | single hstep =>
    obtain ⟨-, u, v, hr, hu, hv⟩ := hstep
    obtain rfl := eq_of_mergeInto_ne hu hx
    obtain rfl := eq_of_mergeInto_ne hv hy
    exact Or.inl (.single hr)
  | @head x z hstep hrest ih =>
    by_cases hz : z = a
    · subst hz
      exact Or.inr ⟨.single hstep, hrest⟩
    · rcases ih hz with hzy | ⟨hza, hay⟩
      · obtain ⟨-, u, v, hr, hu, hv⟩ := hstep
        obtain rfl := eq_of_mergeInto_ne hu hx
        obtain rfl := eq_of_mergeInto_ne hv hz
        exact Or.inl (hzy.head hr)
      · exact Or.inr ⟨hza.head hstep, hay⟩

theorem not_transGen_contract_self (h : Acyclic r) (hr : r a b) (hconvex : ¬ Bypass r a b) :
    ¬ TransGen (contract r (mergeInto a b)) a a := by
  have hab : a ≠ b := fun hab => h.irrefl a (hab ▸ hr)
  intro hcycle
  obtain ⟨z, hstep, hrest⟩ := TransGen.head'_iff.mp hcycle
  obtain ⟨hne, u, z', huz, hu, hz⟩ := hstep
  obtain rfl := eq_of_mergeInto_ne hz hne.symm
  have hzb : z' ≠ b := hz ▸ mergeInto_ne hab z'
  rcases reflTransGen_iff_eq_or_transGen.mp hrest with heq | hrest
  · exact hne heq
  obtain ⟨v, hv, hzv⟩ := exists_transGen_of_contract hne.symm hrest
  rcases mergeInto_eq_left hu with rfl | rfl
  · rcases hv with rfl | rfl
    · exact h v (hzv.head huz)
    · exact hconvex ⟨z', hzb, huz, hzv.to_reflTransGen⟩
  · rcases hv with rfl | rfl
    · exact h v ((hzv.head huz).head hr)
    · exact h v (hzv.head huz)

theorem acyclic_contract_iff (h : Acyclic r) (hr : r a b) :
    Acyclic (contract r (mergeInto a b)) ↔ ¬ Bypass r a b := by
  have hab : a ≠ b := fun hab => h.irrefl a (hab ▸ hr)
  constructor
  · rintro hacyclic ⟨c, hcb, hac, hpath⟩
    have hca : c ≠ a := fun hca => h.irrefl a (hca ▸ hac)
    refine not_acyclic_contract (.single hac) hpath ?_ ?_ hacyclic
    · rw [mergeInto_left, mergeInto_right]
    · rwa [mergeInto_left, mergeInto_of_ne hcb]
  · intro hconvex x hx
    by_cases hxa : x = a
    · exact not_transGen_contract_self h hr hconvex (hxa ▸ hx)
    · rcases transGen_or_through hxa hxa hx with hx | ⟨hxa, hax⟩
      · exact h x hx
      · exact not_transGen_contract_self h hr hconvex (hax.trans hxa)

/-- The class of a node after the pairs were merged one by one. -/
def mergeAll : List (α × α) → α → α
  | [], x => x
  | (a, b) :: pairs, x => mergeAll pairs (mergeInto a b x)

/-- No pair has a path around it when it is merged. -/
def ConvexInTurn (r : α → α → Prop) : List (α × α) → Prop
  | [] => True
  | (a, b) :: pairs => ¬ Bypass r a b ∧ ConvexInTurn (contract r (mergeInto a b)) pairs

/-- The nodes of the pairs. -/
def pairNodes (pairs : List (α × α)) : List α := pairs.flatMap fun p => [p.1, p.2]

theorem mergeAll_eq_iff {pairs : List (α × α)} {x c : α} (hx : x ∉ pairNodes pairs) :
    mergeAll pairs c = x ↔ c = x := by
  induction pairs generalizing c with
  | nil => rfl
  | cons p pairs ih =>
    obtain ⟨a, b⟩ := p
    simp only [pairNodes, List.flatMap_cons, List.cons_append, List.nil_append, List.mem_cons,
      not_or] at hx
    rw [mergeAll, ih hx.2.2]
    constructor
    · exact fun h => eq_of_mergeInto_ne h hx.1
    · rintro rfl
      exact mergeInto_of_ne hx.2.1

omit [DecidableEq α] in
theorem mem_pairNodes {pairs : List (α × α)} {q : α × α} (hq : q ∈ pairs) :
    q.1 ∈ pairNodes pairs ∧ q.2 ∈ pairNodes pairs :=
  ⟨List.mem_flatMap.mpr ⟨q, hq, by simp⟩, List.mem_flatMap.mpr ⟨q, hq, by simp⟩⟩

/-- Disjoint pairs put no other nodes into a class. -/
theorem mergeAll_eq_mergeAll_iff {pairs : List (α × α)} (hnodup : (pairNodes pairs).Nodup)
    {x y : α} :
    mergeAll pairs x = mergeAll pairs y ↔ x = y ∨ (x, y) ∈ pairs ∨ (y, x) ∈ pairs := by
  induction pairs generalizing x y with
  | nil => simp [mergeAll]
  | cons p pairs ih =>
    obtain ⟨a, b⟩ := p
    simp only [pairNodes, List.flatMap_cons, List.cons_append, List.nil_append,
      List.nodup_cons, List.mem_cons, not_or] at hnodup
    obtain ⟨⟨hab, ha⟩, hb, hnodup⟩ := hnodup
    have hout : ∀ {x y}, (x, y) ∈ pairs → x ≠ a ∧ x ≠ b ∧ y ≠ a ∧ y ≠ b := by
      intro x y hxy
      obtain ⟨hx, hy⟩ := mem_pairNodes hxy
      exact ⟨fun h => ha (h ▸ hx), fun h => hb (h ▸ hx), fun h => ha (h ▸ hy),
        fun h => hb (h ▸ hy)⟩
    have hmem : ∀ {x y}, (mergeInto a b x, mergeInto a b y) ∈ pairs ↔ (x, y) ∈ pairs := by
      intro x y
      constructor
      · intro h
        obtain ⟨hx, -, hy, -⟩ := hout h
        rwa [eq_of_mergeInto_ne rfl hx, eq_of_mergeInto_ne rfl hy]
      · intro h
        obtain ⟨-, hx, -, hy⟩ := hout h
        rwa [mergeInto_of_ne hx, mergeInto_of_ne hy]
    have hmerge : mergeInto a b x = mergeInto a b y ↔
        x = y ∨ (x, y) = (a, b) ∨ (y, x) = (a, b) := by
      unfold mergeInto
      grind
    rw [mergeAll, mergeAll, ih hnodup, hmem, hmem, hmerge, List.mem_cons, List.mem_cons]
    rw [or_assoc, or_or_or_comm]

theorem contract_of_mem {pairs : List (α × α)} (h : Acyclic r)
    (hr : ∀ q ∈ (a, b) :: pairs, r q.1 q.2) (hnodup : (pairNodes ((a, b) :: pairs)).Nodup) :
    ∀ q ∈ pairs, contract r (mergeInto a b) q.1 q.2 := by
  intro q hq
  simp only [pairNodes, List.flatMap_cons, List.cons_append, List.nil_append,
    List.nodup_cons] at hnodup
  obtain ⟨hq1, hq2⟩ := mem_pairNodes hq
  have hrq := hr q (List.mem_cons_of_mem _ hq)
  refine ⟨fun heq => h.irrefl q.2 (heq ▸ hrq), q.1, q.2, hrq, ?_, ?_⟩
  · exact mergeInto_of_ne fun h1 => hnodup.2.1 (h1 ▸ hq1)
  · exact mergeInto_of_ne fun h2 => hnodup.2.1 (h2 ▸ hq2)

/-- Contracting disjoint edges keeps a relation acyclic just where each of them has no path around
it in the relation contracted by the ones before. -/
theorem acyclic_contract_mergeAll_iff {pairs : List (α × α)} (h : Acyclic r)
    (hr : ∀ p ∈ pairs, r p.1 p.2) (hnodup : (pairNodes pairs).Nodup) :
    Acyclic (contract r (mergeAll pairs)) ↔ ConvexInTurn r pairs := by
  induction pairs generalizing r with
  | nil =>
    have hid : contract r id = r := by
      funext x y
      refine propext ⟨?_, fun hxy => ⟨?_, x, y, hxy, rfl, rfl⟩⟩
      · rintro ⟨-, x, y, hxy, rfl, rfl⟩
        exact hxy
      · rintro rfl
        exact h.irrefl x hxy
    change Acyclic (contract r id) ↔ True
    rw [hid, iff_true]
    exact h
  | cons p pairs ih =>
    obtain ⟨a, b⟩ := p
    have hab : r a b := hr (a, b) List.mem_cons_self
    have hpairs := contract_of_mem h hr hnodup
    simp only [pairNodes, List.flatMap_cons, List.cons_append, List.nil_append,
      List.nodup_cons, List.mem_cons, not_or] at hnodup
    obtain ⟨⟨hne, ha⟩, hb, hnodup⟩ := hnodup
    have hcompose : mergeAll ((a, b) :: pairs) = mergeAll pairs ∘ mergeInto a b := rfl
    have hconvex : Acyclic (contract r (mergeAll ((a, b) :: pairs))) → ¬ Bypass r a b := by
      rintro hacyclic ⟨c, hcb, hac, hpath⟩
      have hca : c ≠ a := fun hca => h.irrefl a (hca ▸ hac)
      refine not_acyclic_contract (.single hac) hpath ?_ ?_ hacyclic
      · simp [mergeAll]
      · simp only [mergeAll, mergeInto_left, mergeInto_of_ne hcb]
        rw [(mergeAll_eq_iff ha).mpr rfl, ne_eq, mergeAll_eq_iff ha]
        exact hca
    rw [ConvexInTurn]
    by_cases hbypass : Bypass r a b
    · exact iff_of_false (fun hacyclic => hconvex hacyclic hbypass) fun hall => hall.1 hbypass
    · rw [hcompose, ← contract_contract, and_iff_right hbypass]
      exact ih ((acyclic_contract_iff h hab).mpr hbypass) hpairs hnodup

end Relations

section Edges

variable {α β : Type*} {edges : List (α × α)} {a b : α}

def Edge (edges : List (α × α)) (a b : α) : Prop := (a, b) ∈ edges

instance [DecidableEq α] : DecidableRel (Edge edges) :=
  fun a b => inferInstanceAs (Decidable ((a, b) ∈ edges))

def contractEdges [DecidableEq β] (edges : List (α × α)) (f : α → β) : List (β × β) :=
  (edges.map fun e => (f e.1, f e.2)).filter fun e => e.1 ≠ e.2

theorem edge_contractEdges [DecidableEq β] (edges : List (α × α)) (f : α → β) :
    Edge (contractEdges edges f) = contract (Edge edges) f := by
  funext x y
  simp only [Edge, contractEdges, contract, List.mem_filter, List.mem_map, Prod.exists,
    Prod.mk.injEq, decide_not, Bool.not_eq_eq_eq_not, Bool.not_true, decide_eq_false_iff_not,
    eq_iff_iff]
  exact and_comm

theorem reflTransGen_cons_iff (u v : α) :
    ReflTransGen (Edge ((u, v) :: edges)) a b ↔ ReflTransGen (Edge edges) a b ∨
      ReflTransGen (Edge edges) a u ∧ ReflTransGen (Edge edges) v b := by
  have hmono : ∀ {x y}, ReflTransGen (Edge edges) x y →
      ReflTransGen (Edge ((u, v) :: edges)) x y := fun hxy =>
    ReflTransGen.mono (fun _ _ => List.mem_cons_of_mem (u, v)) _ _ hxy
  constructor
  · intro h
    induction h with
    | refl => exact Or.inl .refl
    | @tail x y _ hxy ih =>
      rcases List.mem_cons.mp hxy with heq | hxy
      · obtain ⟨rfl, rfl⟩ := Prod.mk.inj heq
        rcases ih with hau | ⟨hau, -⟩
        · exact Or.inr ⟨hau, .refl⟩
        · exact Or.inr ⟨hau, .refl⟩
      · rcases ih with hax | ⟨hau, hvx⟩
        · exact Or.inl (hax.tail hxy)
        · exact Or.inr ⟨hau, hvx.tail hxy⟩
  · rintro (hab | ⟨hau, hvb⟩)
    · exact hmono hab
    · exact ((hmono hau).tail List.mem_cons_self).trans (hmono hvb)

variable [DecidableEq α]

/-- A path uses the first edge once, or not at all. -/
def reachable : List (α × α) → α → α → Bool
  | [], a, b => a = b
  | (u, v) :: edges, a, b => reachable edges a b || reachable edges a u && reachable edges v b

def removeEdge (edges : List (α × α)) (a b : α) : List (α × α) :=
  edges.filter fun e => e ≠ (a, b)

theorem reachable_iff : reachable edges a b = true ↔ ReflTransGen (Edge edges) a b := by
  induction edges generalizing a b with
  | nil =>
    rw [reachable, decide_eq_true_iff]
    constructor
    · rintro rfl
      exact .refl
    · intro h
      rcases ReflTransGen.cases_head h with heq | ⟨c, hac, -⟩
      · exact heq
      · exact absurd hac List.not_mem_nil
  | cons e edges ih =>
    obtain ⟨u, v⟩ := e
    rw [reachable, Bool.or_eq_true, Bool.and_eq_true, ih, ih, ih, reflTransGen_cons_iff]

/-- In an acyclic relation a path around an edge does without it. -/
theorem bypass_iff (h : Acyclic (Edge edges)) (hab : a ≠ b) :
    Bypass (Edge edges) a b ↔ ReflTransGen (Edge (removeEdge edges a b)) a b := by
  have hmem : ∀ {x y}, Edge (removeEdge edges a b) x y ↔
      Edge edges x y ∧ ¬(x = a ∧ y = b) := by
    intro x y
    rw [Edge, removeEdge, List.mem_filter, decide_eq_true_iff, ne_eq, Prod.mk.injEq]
    rfl
  constructor
  · rintro ⟨c, hcb, hac, hpath⟩
    have hstart : ReflTransGen (Edge (removeEdge edges a b)) a c :=
      .single (hmem.mpr ⟨hac, fun heq => hcb heq.2⟩)
    have hreach : ∀ y, ReflTransGen (Edge edges) c y →
        ReflTransGen (Edge (removeEdge edges a b)) a y := by
      intro y hy
      induction hy with
      | refl => exact hstart
      | @tail x y hcx hxy ih =>
        refine ih.tail (hmem.mpr ⟨hxy, ?_⟩)
        rintro ⟨rfl, -⟩
        exact h x (.head' hac hcx)
    exact hreach b hpath
  · intro hpath
    rcases ReflTransGen.cases_head hpath with heq | ⟨c, hac, hcb⟩
    · exact absurd heq hab
    · refine ⟨c, fun hc => (hmem.mp hac).2 ⟨rfl, hc⟩, (hmem.mp hac).1, ?_⟩
      exact ReflTransGen.mono (fun _ _ hxy => (hmem.mp hxy).1) _ _ hcb

end Edges

end Rannc.Digraph
