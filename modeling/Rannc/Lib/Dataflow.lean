import Rannc.Lib.OptionFold
import Mathlib.Data.List.Forall2
import Mathlib.Data.List.Nodup
import Mathlib.Tactic

/-!
# Dataflow programs

A program is a list of instructions that read named values and bind new ones. What an operator
does is a parameter. A valuation under which every instruction holds is what the program computes,
whatever other instructions there are: this is how programs that share instructions are compared.
-/
namespace Rannc.Dataflow

variable {N O V : Type}

structure Instr (N O : Type) where
  op : O
  reads : List N
  writes : List N

/-- The outputs of an operator, by position. -/
abbrev Interp (O V : Type) := O → List V → ℕ → V

/-- The values that are bound. -/
abbrev Env (N V : Type) := N → Option V

section Run

variable [DecidableEq N] (I : Interp O V)

def Env.assign (env : Env N V) (writes : List N) (vals : ℕ → V) : Env N V :=
  fun n => if n ∈ writes then some (vals (writes.idxOf n)) else env n

def step (env : Env N V) (i : Instr N O) : Option (Env N V) := do
  let args ← i.reads.mapM env
  return env.assign i.writes (I i.op args)

def run (env : Env N V) (instrs : List (Instr N O)) : Option (Env N V) := instrs.foldlM (step I) env

/-- The instruction holds under a valuation. -/
def Holds (ρ : Env N V) (i : Instr N O) : Prop :=
  ∃ args, i.reads.mapM ρ = some args ∧ ∀ n ∈ i.writes, ρ n = some (I i.op args (i.writes.idxOf n))

end Run

/-- Every value is bound before it is read. -/
def ReadsBound : List N → List (Instr N O) → Prop
  | _, [] => True
  | bound, i :: instrs => (∀ n ∈ i.reads, n ∈ bound) ∧ ReadsBound (bound ++ i.writes) instrs

/-- All that a program binds. -/
def writes (instrs : List (Instr N O)) : List N := instrs.flatMap Instr.writes

theorem ReadsBound.mono {bound bound' : List N} {instrs : List (Instr N O)}
    (h : ReadsBound bound instrs) (hsub : bound ⊆ bound') : ReadsBound bound' instrs := by
  induction instrs generalizing bound bound' with
  | nil => trivial
  | cons i instrs ih =>
    refine ⟨fun n hn => hsub (h.1 n hn), ih h.2 ?_⟩
    intro n hn
    cases List.mem_append.mp hn with
    | inl hbound => exact List.mem_append_left _ (hsub hbound)
    | inr hwrite => exact List.mem_append_right _ hwrite

theorem readsBound_append {bound : List N} {instrs instrs' : List (Instr N O)} :
    ReadsBound bound (instrs ++ instrs') ↔
      ReadsBound bound instrs ∧ ReadsBound (bound ++ writes instrs) instrs' := by
  induction instrs generalizing bound with
  | nil => simp [ReadsBound, writes]
  | cons i instrs ih =>
    simp only [List.cons_append, ReadsBound, ih, writes, List.flatMap_cons, List.append_assoc,
      and_assoc]

theorem ReadsBound.mem {bound : List N} {before after : List (Instr N O)} {i : Instr N O}
    (h : ReadsBound bound (before ++ i :: after)) {n : N} (hn : n ∈ i.reads) :
    n ∈ bound ∨ n ∈ writes before :=
  List.mem_append.mp ((readsBound_append.mp h).2.1 n hn)

/-- Some instructions are left out; what the others read is bound from the start. -/
theorem ReadsBound.filter {α : Type} {f : α → Instr N O} {p : α → Bool} {l : List α}
    {bound bound' : List N} (h : ReadsBound bound (l.map f))
    (hbound : ∀ a ∈ l, p a → ∀ n ∈ (f a).reads, n ∈ bound → n ∈ bound')
    (hwrites : ∀ a ∈ l, p a → ∀ b ∈ l, ¬p b → ∀ n ∈ (f b).writes, n ∈ (f a).reads → n ∈ bound') :
    ReadsBound bound' ((l.filter p).map f) := by
  induction l generalizing bound bound' with
  | nil => trivial
  | cons b l ih =>
    by_cases hb : p b
    · rw [List.filter_cons_of_pos hb]
      refine ⟨fun n hn => hbound b List.mem_cons_self hb n hn (h.1 n hn), ih h.2 ?_ ?_⟩
      · intro a ha hpa n hn hmem
        cases List.mem_append.mp hmem with
        | inl hmem =>
          exact List.mem_append_left _ (hbound a (List.mem_cons_of_mem _ ha) hpa n hn hmem)
        | inr hmem => exact List.mem_append_right _ hmem
      · intro a ha hpa c hc hpc n hn hmem
        exact List.mem_append_left _
          (hwrites a (List.mem_cons_of_mem _ ha) hpa c (List.mem_cons_of_mem _ hc) hpc n hn hmem)
    · rw [List.filter_cons_of_neg hb]
      apply ih h.2
      · intro a ha hpa n hn hmem
        cases List.mem_append.mp hmem with
        | inl hmem => exact hbound a (List.mem_cons_of_mem _ ha) hpa n hn hmem
        | inr hmem =>
          exact hwrites a (List.mem_cons_of_mem _ ha) hpa b List.mem_cons_self hb n hmem hn
      · intro a ha hpa c hc
        exact hwrites a (List.mem_cons_of_mem _ ha) hpa c (List.mem_cons_of_mem _ hc)

theorem ReadsBound.reread {bound bound' : List N} {instrs instrs' : List (Instr N O)}
    (h : ReadsBound bound instrs) (start : List N) (kept : N → Prop)
    (hreread : List.Forall₂ (fun i' i : Instr N O => i'.writes = i.writes ∧
      ∀ n ∈ i'.reads, n ∈ start ∨ n ∈ i.reads ∧ kept n) instrs' instrs)
    (hstart : start ⊆ bound') (hkept : ∀ n ∈ bound, kept n → n ∈ bound') :
    ReadsBound bound' instrs' := by
  induction hreread generalizing bound bound' with
  | nil => trivial
  | @cons i' i instrs' instrs hi _ ih =>
    refine ⟨fun n hn => ?_, ih h.2 ?_ ?_⟩
    · cases hi.2 n hn with
      | inl hstart' => exact hstart hstart'
      | inr hread => exact hkept n (h.1 n hread.1) hread.2
    · exact fun n hn => List.mem_append_left _ (hstart hn)
    · intro n hn hk
      rw [hi.1]
      cases List.mem_append.mp hn with
      | inl hbound => exact List.mem_append_left _ (hkept n hbound hk)
      | inr hwrite => exact List.mem_append_right _ hwrite

section Run

variable [DecidableEq N] {I : Interp O V} {env env' ρ : Env N V} {bound : List N}
  {instrs instrs' : List (Instr N O)}

theorem run_append : run I env (instrs ++ instrs') =
    (run I env instrs).bind fun env => run I env instrs' :=
  List.foldlM_append

theorem step_of_not_mem {i : Instr N O} (h : step I env i = some env') {n : N}
    (hn : n ∉ i.writes) : env' n = env n := by
  obtain ⟨args, -, hend⟩ := Option.bind_eq_some_iff.mp h
  rw [← Option.some.inj hend]
  exact if_neg hn

theorem run_of_not_mem (h : run I env instrs = some env') {n : N} (hn : n ∉ writes instrs) :
    env' n = env n := by
  induction instrs generalizing env with
  | nil => rw [← Option.some.inj h]
  | cons i instrs ih =>
    unfold writes at hn
    rw [List.flatMap_cons, List.mem_append, not_or] at hn
    unfold run at h
    rw [List.foldlM_cons] at h
    obtain ⟨env₁, hstep, hrest⟩ := Option.bind_eq_some_iff.mp h
    rw [ih hrest hn.2, step_of_not_mem hstep hn.1]

theorem run_isSome_iff (h : run I env instrs = some env') (n : N) :
    (env' n).isSome ↔ (env n).isSome ∨ n ∈ writes instrs := by
  induction instrs generalizing env with
  | nil =>
    rw [← Option.some.inj h]
    simp [writes]
  | cons i instrs ih =>
    unfold run at h
    rw [List.foldlM_cons] at h
    obtain ⟨env₁, hstep, hrest⟩ := Option.bind_eq_some_iff.mp h
    have hbound : (env₁ n).isSome ↔ (env n).isSome ∨ n ∈ i.writes := by
      obtain ⟨args, -, hend⟩ := Option.bind_eq_some_iff.mp hstep
      rw [← Option.some.inj hend]
      unfold Env.assign
      split_ifs with hn
      · simp [hn]
      · simp [hn]
    rw [ih hrest, hbound]
    unfold writes
    rw [List.flatMap_cons, List.mem_append, or_assoc]

/-- A program that binds before it reads has a run. -/
theorem ReadsBound.exists_run (h : ReadsBound bound instrs) (henv : ∀ n ∈ bound, (env n).isSome) :
    ∃ env', run I env instrs = some env' := by
  induction instrs generalizing bound env with
  | nil => exact ⟨env, rfl⟩
  | cons i instrs ih =>
    obtain ⟨args, hargs⟩ := mapM_of_forall_some fun n hn => henv n (h.1 n hn)
    have hstep : step I env i = some (env.assign i.writes (I i.op args)) := by
      unfold step
      rw [hargs]
      rfl
    have hrest : ∀ n ∈ bound ++ i.writes, (env.assign i.writes (I i.op args) n).isSome := by
      intro n hn
      unfold Env.assign
      split_ifs with hwrite
      · rfl
      · exact henv n ((List.mem_append.mp hn).resolve_right hwrite)
    obtain ⟨env', hrun⟩ := ih h.2 hrest
    refine ⟨env', ?_⟩
    unfold run
    rw [List.foldlM_cons, hstep]
    exact hrun

theorem Holds.congr {i : Instr N O} (h : Holds I ρ i) {ρ' : Env N V}
    (hreads : ∀ n ∈ i.reads, ρ' n = ρ n) (hwrites : ∀ n ∈ i.writes, ρ' n = ρ n) :
    Holds I ρ' i := by
  obtain ⟨args, hargs, hvals⟩ := h
  refine ⟨args, ?_, fun n hn => (hwrites n hn).trans (hvals n hn)⟩
  rw [← hargs]
  exact mapM_congr hreads

theorem run_eq_of_holds (hρ : ∀ n, (env n).isSome → env n = ρ n)
    (hholds : ∀ i ∈ instrs, Holds I ρ i) (h : run I env instrs = some env') :
    ∀ n, (env' n).isSome → env' n = ρ n := by
  induction instrs generalizing env with
  | nil =>
    rw [← Option.some.inj h]
    exact hρ
  | cons i instrs ih =>
    unfold run at h
    rw [List.foldlM_cons] at h
    obtain ⟨env₁, hstep, hrest⟩ := Option.bind_eq_some_iff.mp h
    apply ih _ (fun i hi => hholds i (List.mem_cons_of_mem _ hi)) hrest
    intro n hn
    obtain ⟨args, hargs, hend⟩ := Option.bind_eq_some_iff.mp hstep
    obtain ⟨args', hargs', hwrites⟩ := hholds i List.mem_cons_self
    have hsame : i.reads.mapM env = i.reads.mapM ρ :=
      mapM_congr fun n hn => hρ n (isSome_of_mapM hargs hn)
    rw [hargs, hargs'] at hsame
    obtain rfl := Option.some.inj hsame
    by_cases hwrite : n ∈ i.writes
    · rw [← Option.some.inj hend, hwrites n hwrite]
      exact if_pos hwrite
    · rw [step_of_not_mem hstep hwrite] at hn ⊢
      exact hρ n hn

/-- In a program that binds every value once, all instructions hold in the end. -/
theorem holds_of_run (h : run I env instrs = some env') (henv : ∀ n, (env n).isSome → n ∈ bound)
    (hnodup : (bound ++ writes instrs).Nodup) : ∀ i ∈ instrs, Holds I env' i := by
  induction instrs generalizing bound env with
  | nil => exact fun i hi => absurd hi List.not_mem_nil
  | cons i instrs ih =>
    unfold run at h
    rw [List.foldlM_cons] at h
    obtain ⟨env₁, hstep, hrest⟩ := Option.bind_eq_some_iff.mp h
    unfold writes at hnodup
    rw [List.flatMap_cons, ← List.append_assoc] at hnodup
    have henv₁ : ∀ n, (env₁ n).isSome → n ∈ bound ++ i.writes := by
      intro n hn
      by_cases hwrite : n ∈ i.writes
      · exact List.mem_append_right _ hwrite
      · rw [step_of_not_mem hstep hwrite] at hn
        exact List.mem_append_left _ (henv n hn)
    have hkept : ∀ n, n ∈ bound ++ i.writes → env' n = env₁ n := by
      intro n hn
      exact run_of_not_mem hrest fun hlater => List.disjoint_of_nodup_append hnodup hn hlater
    intro j hj
    cases List.mem_cons.mp hj with
    | inr hmem => exact ih hrest henv₁ hnodup j hmem
    | inl heq =>
      subst heq
      obtain ⟨args, hargs, hend⟩ := Option.bind_eq_some_iff.mp hstep
      refine ⟨args, ?_, ?_⟩
      · rw [← hargs]
        apply mapM_congr
        intro n hn
        have hbound := henv n (isSome_of_mapM hargs hn)
        have hfirst : n ∉ j.writes :=
          List.disjoint_of_nodup_append (List.nodup_append.mp hnodup).1 hbound
        rw [hkept n (List.mem_append_left _ hbound), step_of_not_mem hstep hfirst]
      · intro n hn
        rw [hkept n (List.mem_append_right _ hn), ← Option.some.inj hend]
        exact if_pos hn

theorem ReadsBound.run_eq (h : ReadsBound bound instrs) (henv : ∀ n ∈ bound, (env n).isSome)
    (hρ : ∀ n, (env n).isSome → env n = ρ n) (hholds : ∀ i ∈ instrs, Holds I ρ i) :
    ∃ env', run I env instrs = some env' ∧ (∀ n, n ∈ bound ∨ n ∈ writes instrs → env' n = ρ n) := by
  obtain ⟨env', hrun⟩ := h.exists_run (I := I) henv
  refine ⟨env', hrun, fun n hn => run_eq_of_holds hρ hholds hrun n ?_⟩
  rw [run_isSome_iff hrun]
  cases hn with
  | inl hbound => exact Or.inl (henv n hbound)
  | inr hwrite => exact Or.inr hwrite

end Run

end Rannc.Dataflow
