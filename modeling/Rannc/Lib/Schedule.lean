import Mathlib.Data.List.Sort
import Mathlib.Tactic

/-!
# Schedules by time slot

A stable sort keeps its shape under filtering, so sorting what concerns one process and filtering
the sorted whole give the same list. A schedule is a sequence of slots; a process that works in
phases which straddle the slots has the same schedule with the phases regrouped. Work that lags
behind by a fixed number of slots is complete once as many slots have been added at the end.
-/
namespace Rannc.Schedule

variable {α : Type*}

section StableSort

variable (r : α → α → Prop) [DecidableRel r] [IsTrans α r] (p : α → Bool)

theorem filter_orderedInsert (a : α) {l : List α} (hl : l.Pairwise r) :
    (l.orderedInsert r a).filter p =
      if p a then (l.filter p).orderedInsert r a else l.filter p := by
  induction l with
  | nil => cases h : p a <;> simp [h]
  | cons b l ih =>
    rw [List.pairwise_cons] at hl
    by_cases hab : r a b
    · rw [List.orderedInsert_cons_of_le r l hab]
      -- nothing that survives the filter is below `a`
      have hfront : ∀ c ∈ (b :: l).filter p, r a c := by
        intro c hc
        rcases List.mem_cons.mp (List.mem_filter.mp hc).1 with rfl | hcl
        · exact hab
        · exact IsTrans.trans a b c hab (hl.1 c hcl)
      cases ha : p a with
      | false => simp [ha]
      | true =>
        rw [List.filter_cons_of_pos ha, if_pos rfl]
        cases hfilter : (b :: l).filter p with
        | nil => rfl
        | cons c cs =>
          rw [hfilter] at hfront
          rw [List.orderedInsert_cons_of_le r cs (hfront c List.mem_cons_self)]
    · rw [List.orderedInsert_of_not_le r l hab]
      cases hb : p b with
      | false =>
        rw [List.filter_cons_of_neg (by simp [hb]), ih hl.2, List.filter_cons_of_neg (by simp [hb])]
      | true =>
        rw [List.filter_cons_of_pos hb, ih hl.2, List.filter_cons_of_pos hb]
        cases p a with
        | false => rfl
        | true => rw [if_pos rfl, if_pos rfl, List.orderedInsert_of_not_le r _ hab]

theorem filter_insertionSort [Std.Total r] (l : List α) :
    (l.insertionSort r).filter p = (l.filter p).insertionSort r := by
  induction l with
  | nil => rfl
  | cons a l ih =>
    rw [List.insertionSort_cons, filter_orderedInsert r p a (List.pairwise_insertionSort r l), ih]
    cases ha : p a <;> simp [ha]

omit [IsTrans α r] in
theorem insertionSort_congr {s : α → α → Prop} [DecidableRel s] {l : List α}
    (h : ∀ a ∈ l, ∀ b ∈ l, r a b ↔ s a b) : l.insertionSort r = l.insertionSort s := by
  have := List.map_insertionSort r s id l h
  simpa using this

end StableSort

theorem flatMap_phases (a b : ℕ → List α) (hb : b 0 = []) (n : ℕ) :
    ((List.range n).flatMap fun k => a k ++ b (k + 1)) =
      ((List.range n).flatMap fun k => b k ++ a k) ++ b n := by
  induction n with
  | zero => simp [hb]
  | succ n ih => simp [List.range_succ, ih]

/-- Where only one element of a list contributes, the list contributes what that element does. -/
theorem flatMap_eq_single {β : Type*} {l : List β} (hl : l.Nodup) {x : β} (hx : x ∈ l)
    {f : β → List α} (h : ∀ y ∈ l, y ≠ x → f y = []) : l.flatMap f = f x := by
  obtain ⟨before, after, rfl⟩ := List.append_of_mem hx
  rw [List.nodup_middle, List.nodup_cons, List.mem_append, not_or] at hl
  have hbefore : before.flatMap f = [] := by
    refine List.flatMap_eq_nil_iff.mpr fun y hy => h y (List.mem_append_left _ hy) ?_
    rintro rfl
    exact hl.1.1 hy
  have hafter : after.flatMap f = [] := by
    refine List.flatMap_eq_nil_iff.mpr fun y hy => h y ?_ ?_
    · exact List.mem_append_right _ (List.mem_cons_of_mem x hy)
    · rintro rfl
      exact hl.1.2 hy
  rw [List.flatMap_append, List.flatMap_cons, hbefore, hafter, List.nil_append, List.append_nil]

theorem eq_filter_append_filter {l : List α} {p q : α → Bool} (hpq : ∀ a ∈ l, q a = !p a)
    (hl : l.Pairwise fun a b => q a → q b) : l = l.filter p ++ l.filter q := by
  induction l with
  | nil => rfl
  | cons a l ih =>
    rw [List.pairwise_cons] at hl
    have hrest := ih (fun b hb => hpq b (List.mem_cons_of_mem a hb)) hl.2
    have ha := hpq a List.mem_cons_self
    cases hpa : p a with
    | true =>
      rw [hpa, Bool.not_true] at ha
      rw [List.filter_cons_of_pos hpa, List.filter_cons_of_neg (by simp [ha]), List.cons_append,
        ← hrest]
    | false =>
      rw [hpa, Bool.not_false] at ha
      have hnil : l.filter p = [] := by
        refine List.filter_eq_nil_iff.mpr fun b hb hpb => ?_
        have hqb := hl.1 b hb ha
        rw [hpq b (List.mem_cons_of_mem a hb), hpb] at hqb
        cases hqb
      rw [hnil, List.nil_append] at hrest
      rw [List.filter_cons_of_neg (by simp [hpa]), hnil, List.filter_cons_of_pos ha,
        List.nil_append, ← hrest]

theorem filter_flatMap_of_label {β : Type*} {f : α → List β} {label : β → α}
    (hf : ∀ a, ∀ b ∈ f a, label b = a) (p : α → Bool) (l : List α) :
    (l.flatMap f).filter (fun b => p (label b)) = (l.filter p).flatMap f := by
  induction l with
  | nil => rfl
  | cons a l ih =>
    have ha : (f a).filter (fun b => p (label b)) = if p a then f a else [] := by
      split_ifs with hpa
      · refine List.filter_eq_self.mpr fun b hb => ?_
        rwa [hf a b hb]
      · refine List.filter_eq_nil_iff.mpr fun b hb => ?_
        rwa [hf a b hb]
    rw [List.flatMap_cons, List.filter_append, ih, ha, List.filter_cons]
    split_ifs <;> rfl

section Delay

variable (g : ℕ → α) (delay : ℕ)

/-- Slot `t` does the work of slot `t - delay`. -/
def lagging (t : ℕ) : List α := if delay ≤ t then [g (t - delay)] else []

theorem flatMap_lagging (n : ℕ) :
    (List.range n).flatMap (lagging g delay) = (List.range (n - delay)).map g := by
  induction n with
  | zero => simp
  | succ n ih =>
    rw [List.range_succ, List.flatMap_append, ih, List.flatMap_singleton, lagging]
    split_ifs with h
    · rw [Nat.succ_sub h, List.range_succ, List.map_append, List.map_singleton]
    · rw [Nat.sub_eq_zero_of_le (by omega), Nat.sub_eq_zero_of_le (by omega), List.append_nil]

theorem flatMap_lagging_flush (n : ℕ) :
    (List.range n).flatMap (lagging g delay) ++ (List.range' n delay).flatMap (lagging g delay) =
      (List.range n).map g := by
  have hslots : List.range n ++ List.range' n delay = List.range (n + delay) := by
    rw [List.range_eq_range', List.range_eq_range', ← List.range'_append_1, Nat.zero_add]
  rw [← List.flatMap_append, hslots, flatMap_lagging, Nat.add_sub_cancel]

theorem flatMap_flush {max_delay : ℕ} (h : delay ≤ max_delay) (f : ℕ → List α) :
    ((List.range' 1 max_delay).flatMap fun i => if i ≤ delay then f i else []) =
      (List.range' 1 delay).flatMap f := by
  obtain ⟨extra, rfl⟩ := Nat.exists_eq_add_of_le h
  rw [← List.range'_append_1, List.flatMap_append]
  have hextra : ((List.range' (1 + delay) extra).flatMap fun i => if i ≤ delay then f i else []) =
      [] := by
    refine List.flatMap_eq_nil_iff.mpr fun i hi => if_neg ?_
    have := (List.mem_range'_1.mp hi).1
    omega
  rw [hextra, List.append_nil]
  refine List.flatMap_congr fun i hi => if_pos ?_
  have := (List.mem_range'_1.mp hi).2
  omega

end Delay

end Rannc.Schedule
