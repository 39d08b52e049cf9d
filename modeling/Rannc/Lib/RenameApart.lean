import Mathlib.Data.List.Forall2
import Mathlib.Tactic

/-!
# Renaming apart

Some names have a list of clones. Each occurrence of such a name takes the next of its clones, which
fails when they are used up.
-/
namespace Rannc.RenameApart

variable {N : Type} [DecidableEq N] (clones : N → Option (List N))

def rename : (N → ℕ) → List N → Option (List N × (N → ℕ))
  | idx, [] => some ([], idx)
  | idx, name :: names =>
    match clones name with
    | none => do
      let (names, idx) ← rename idx names
      return (name :: names, idx)
    | some cl_names => do
      let cl_name ← cl_names[idx name]?
      let (names, idx) ← rename (Function.update idx name (idx name + 1)) names
      return (cl_name :: names, idx)

/-- Several lists, one after the other. -/
def renameAll : (N → ℕ) → List (List N) → Option (List (List N))
  | _, [] => some []
  | idx, names :: lists => do
    let (names, idx) ← rename clones idx names
    let lists ← renameAll idx lists
    return names :: lists

/-- The name that an occurrence had. -/
def RenamedFrom (name' name : N) : Prop :=
  clones name = none ∧ name' = name ∨ ∃ cl_names, clones name = some cl_names ∧ name' ∈ cl_names

variable {clones} {idx idx' : N → ℕ} {names names' : List N}

theorem rename_append (idx : N → ℕ) (l l' : List N) :
    rename clones idx (l ++ l') = (rename clones idx l).bind fun (names, idx) =>
      (rename clones idx l').map fun (names', idx) => (names ++ names', idx) := by
  induction l generalizing idx with
  | nil =>
    rw [List.nil_append]
    cases h : rename clones idx l' with
    | none => simp [rename, h]
    | some res => simp [rename, h]
  | cons name l ih =>
    rw [List.cons_append]
    cases hname : clones name with
    | none =>
      simp only [rename, hname, ih, Option.bind_eq_bind, Option.bind_assoc, Option.pure_def]
      cases rename clones idx l with
      | none => rfl
      | some res =>
        dsimp only [Option.bind_some]
        cases rename clones res.2 l' <;> rfl
    | some cl_names =>
      simp only [rename, hname, ih, Option.bind_eq_bind, Option.bind_assoc, Option.pure_def]
      cases cl_names[idx name]? with
      | none => rfl
      | some cl_name =>
        dsimp only [Option.bind_some]
        cases rename clones (Function.update idx name (idx name + 1)) l with
        | none => rfl
        | some res =>
          dsimp only [Option.bind_some]
          cases rename clones res.2 l' <;> rfl

/-- Lists are renamed as if they were one. -/
theorem renameAll_eq (clones : N → Option (List N)) (idx : N → ℕ) (lists : List (List N)) :
    (renameAll clones idx lists).map List.flatten =
      (rename clones idx lists.flatten).map Prod.fst := by
  induction lists generalizing idx with
  | nil => rfl
  | cons names lists ih =>
    rw [List.flatten_cons, rename_append]
    unfold renameAll
    cases rename clones idx names with
    | none => rfl
    | some res =>
      have hrest := ih res.2
      simp only [Option.bind_eq_bind, Option.bind_some, Option.pure_def]
      cases hall : renameAll clones res.2 lists with
      | none =>
        rw [hall] at hrest
        cases hone : rename clones res.2 lists.flatten with
        | none => rfl
        | some res' =>
          rw [hone] at hrest
          cases hrest
      | some lists' =>
        rw [hall] at hrest
        cases hone : rename clones res.2 lists.flatten with
        | none =>
          rw [hone] at hrest
          cases hrest
        | some res' =>
          rw [hone] at hrest
          have hflat : lists'.flatten = res'.1 := Option.some.inj hrest
          simp [hflat]

/-- There have to be as many clones as occurrences. -/
theorem rename_isSome_iff (hidx : ∀ name cl_names, clones name = some cl_names →
    idx name ≤ cl_names.length) :
    (rename clones idx names).isSome ↔ ∀ name cl_names, clones name = some cl_names →
      idx name + names.count name ≤ cl_names.length := by
  induction names generalizing idx with
  | nil => simpa [rename] using hidx
  | cons head names ih =>
    cases hhead : clones head with
    | none =>
      have hcount : ∀ name cl_names, clones name = some cl_names →
          (head :: names).count name = names.count name := by
        intro name cl_names hname
        apply List.count_cons_of_ne
        intro heq
        rw [heq, hname] at hhead
        cases hhead
      have hsome : (rename clones idx (head :: names)).isSome ↔
          (rename clones idx names).isSome := by
        simp only [rename, hhead, Option.bind_eq_bind, Option.pure_def]
        cases rename clones idx names <;> simp
      rw [hsome, ih hidx]
      constructor
      · intro h name cl_names hname
        rw [hcount name cl_names hname]
        exact h name cl_names hname
      · intro h name cl_names hname
        rw [← hcount name cl_names hname]
        exact h name cl_names hname
    | some cl_head =>
      by_cases hlt : idx head < cl_head.length
      · have hsome : (rename clones idx (head :: names)).isSome ↔
            (rename clones (Function.update idx head (idx head + 1)) names).isSome := by
          simp only [rename, hhead, List.getElem?_eq_getElem hlt, Option.bind_eq_bind,
            Option.bind_some, Option.pure_def]
          cases rename clones (Function.update idx head (idx head + 1)) names <;> simp
        have hcount : ∀ name, Function.update idx head (idx head + 1) name + names.count name =
            idx name + (head :: names).count name := by
          intro name
          by_cases heq : name = head
          · subst heq
            rw [Function.update_self, List.count_cons_self]
            omega
          · rw [Function.update_of_ne heq, List.count_cons_of_ne (Ne.symm heq)]
        rw [hsome, ih]
        · simp only [hcount]
        · intro name cl_names hname
          by_cases heq : name = head
          · subst heq
            obtain rfl := Option.some.inj (hhead.symm.trans hname)
            rw [Function.update_self]
            exact hlt
          · rw [Function.update_of_ne heq]
            exact hidx name cl_names hname
      · refine iff_of_false ?_ fun h => ?_
        · simp [rename, hhead, List.getElem?_eq_none (not_lt.mp hlt)]
        · have hle := h head cl_head hhead
          rw [List.count_cons_self] at hle
          omega

theorem rename_cons {name : N} (h : rename clones idx (name :: names) = some (names', idx')) :
    (∃ rest, clones name = none ∧ rename clones idx names = some (rest, idx') ∧
      names' = name :: rest) ∨
    ∃ cl_names cl_name rest, clones name = some cl_names ∧ cl_names[idx name]? = some cl_name ∧
      rename clones (Function.update idx name (idx name + 1)) names = some (rest, idx') ∧
      names' = cl_name :: rest := by
  unfold rename at h
  cases hname : clones name with
  | none =>
    rw [hname] at h
    obtain ⟨⟨rest, idx₁⟩, hrest, hend⟩ := Option.bind_eq_some_iff.mp h
    obtain ⟨rfl, rfl⟩ := Prod.mk.inj (Option.some.inj hend)
    exact Or.inl ⟨rest, rfl, hrest, rfl⟩
  | some cl_names =>
    rw [hname] at h
    obtain ⟨cl_name, hcl, h⟩ := Option.bind_eq_some_iff.mp h
    obtain ⟨⟨rest, idx₁⟩, hrest, hend⟩ := Option.bind_eq_some_iff.mp h
    obtain ⟨rfl, rfl⟩ := Prod.mk.inj (Option.some.inj hend)
    exact Or.inr ⟨cl_names, cl_name, rest, rfl, hcl, hrest, rfl⟩

theorem rename_from (h : rename clones idx names = some (names', idx')) :
    List.Forall₂ (RenamedFrom clones) names' names := by
  induction names generalizing idx names' with
  | nil =>
    obtain ⟨rfl, -⟩ := Prod.mk.inj (Option.some.inj h)
    exact List.Forall₂.nil
  | cons name names ih =>
    rcases rename_cons h with ⟨rest, hname, hrest, rfl⟩ |
      ⟨cl_names, cl_name, rest, hname, hcl, hrest, rfl⟩
    · exact List.Forall₂.cons (Or.inl ⟨hname, rfl⟩) (ih hrest)
    · exact List.Forall₂.cons (Or.inr ⟨cl_names, hname, List.mem_of_getElem? hcl⟩) (ih hrest)

theorem renameAll_from {lists lists' : List (List N)}
    (h : renameAll clones idx lists = some lists') :
    List.Forall₂ (List.Forall₂ (RenamedFrom clones)) lists' lists := by
  induction lists generalizing idx lists' with
  | nil =>
    obtain rfl := Option.some.inj h
    exact List.Forall₂.nil
  | cons names lists ih =>
    obtain ⟨⟨names', idx₁⟩, hnames, h⟩ := Option.bind_eq_some_iff.mp h
    obtain ⟨rest, hrest, hend⟩ := Option.bind_eq_some_iff.mp h
    obtain rfl := Option.some.inj hend
    exact List.Forall₂.cons (rename_from hnames) (ih hrest)

theorem exists_mem_of_forall₂ {α β : Type} {R : α → β → Prop} {l : List α} {l' : List β}
    (h : List.Forall₂ R l l') {a : α} (ha : a ∈ l) : ∃ b ∈ l', R a b := by
  induction h with
  | nil => cases ha
  | cons hR _ ih =>
    cases List.mem_cons.mp ha with
    | inl heq => exact ⟨_, List.mem_cons_self, heq ▸ hR⟩
    | inr hmem =>
      obtain ⟨b, hb, hab⟩ := ih hmem
      exact ⟨b, List.mem_cons_of_mem _ hb, hab⟩

/-- Clones are different from each other and from the names that are kept. -/
structure Apart (clones : N → Option (List N)) (names : List N) : Prop where
  disjoint : ∀ name cl_names name' cl_names', clones name = some cl_names →
    clones name' = some cl_names' → name ≠ name' → cl_names.Disjoint cl_names'
  kept : ∀ name ∈ names, clones name = none → ∀ name' cl_names, clones name' = some cl_names →
    name ∉ cl_names

/-- The clones of a name are used in their order. -/
theorem rename_filter (hapart : Apart clones names)
    (h : rename clones idx names = some (names', idx')) {name : N} {cl_names : List N}
    (hname : clones name = some cl_names) :
    names'.filter (· ∈ cl_names) = (cl_names.drop (idx name)).take (names.count name) := by
  induction names generalizing idx names' with
  | nil =>
    obtain ⟨rfl, -⟩ := Prod.mk.inj (Option.some.inj h)
    rfl
  | cons head names ih =>
    have hrest_apart : Apart clones names :=
      ⟨hapart.disjoint, fun name hmem => hapart.kept name (List.mem_cons_of_mem _ hmem)⟩
    rcases rename_cons h with ⟨rest, hhead, hrest, rfl⟩ |
      ⟨cl_head, cl_name, rest, hhead, hcl, hrest, rfl⟩
    · have hnot := hapart.kept head List.mem_cons_self hhead name cl_names hname
      have hne : head ≠ name := by
        rintro rfl
        rw [hhead] at hname
        cases hname
      rw [List.filter_cons_of_neg (by simpa using hnot), List.count_cons_of_ne hne]
      exact ih hrest_apart hrest
    · have hih := ih hrest_apart hrest
      by_cases heq : name = head
      · subst heq
        obtain rfl := Option.some.inj (hhead.symm.trans hname)
        obtain ⟨hlt, hget⟩ := List.getElem?_eq_some_iff.mp hcl
        rw [Function.update_self] at hih
        rw [List.filter_cons_of_pos (by simpa using List.mem_of_getElem? hcl), hih,
          List.count_cons_self, List.drop_eq_getElem_cons hlt, List.take_succ_cons, hget]
      · have hnot : cl_name ∉ cl_names := fun hmem =>
          hapart.disjoint name cl_names head cl_head hname hhead heq hmem
            (List.mem_of_getElem? hcl)
        rw [Function.update_of_ne heq] at hih
        rw [List.filter_cons_of_neg (by simpa using hnot), List.count_cons_of_ne (Ne.symm heq), hih]

end Rannc.RenameApart
