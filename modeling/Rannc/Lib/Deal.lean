import Rannc.Lib.Dict
import Mathlib.Data.Finset.Card

/-!
# Dealing numbers to names

The numbers `0, 1, …` are given to the names of a list one after the other. Every name gets as many
numbers as it has places in the list, and no number is given to two names.
-/
namespace Rannc

variable {K : Type} [DecidableEq K]

/-- The numbers that the names have, and the count of turns. -/
structure Deal (K : Type) where
  sets : Dict K (Finset ℕ)
  turn : ℕ

namespace Deal

def start : Deal K := ⟨Dict.empty, 0⟩

/-- The numbers of a name that has none are left out of the map. -/
def of (deal : Deal K) (key : K) : Finset ℕ := (deal.sets.get key).getD ∅

/-- Give a name the number of this turn. -/
def give (number : ℕ → ℕ) (deal : Deal K) (key : K) : Deal K :=
  ⟨deal.sets.set key (insert (number deal.turn) (deal.of key)), deal.turn + 1⟩

/-- Give a name the numbers of several turns. -/
def giveTimes (number : ℕ → ℕ) (times : ℕ) (deal : Deal K) (key : K) : Deal K :=
  (List.replicate times key).foldl (give number) deal

/-- Every number of a turn is given once, in the order of the names. -/
structure Exact (names : List K) (deal : Deal K) : Prop where
  turn : deal.turn = names.length
  card : ∀ key, (deal.of key).card = names.count key
  disjoint : ∀ key key', key ≠ key' → Disjoint (deal.of key) (deal.of key')
  covers : ∀ n, (∃ key, n ∈ deal.of key) ↔ n < names.length
  keys : ∀ key, (deal.sets.get key).isSome ↔ key ∈ names

variable {number : ℕ → ℕ} {deal : Deal K} {names : List K}

theorem of_give (key k : K) : (deal.give number key).of k =
    if k = key then insert (number deal.turn) (deal.of key) else deal.of k := by
  unfold of give
  dsimp only
  rw [Dict.get_set]
  split_ifs <;> rfl

theorem Exact.start : Exact [] (start : Deal K) where
  turn := rfl
  card _ := rfl
  disjoint _ _ _ := Finset.disjoint_empty_left _
  covers n := by simp [of, Deal.start]
  keys key := by simp [Deal.start]

theorem Exact.notMem (h : Exact names deal) (key : K) : names.length ∉ deal.of key := by
  intro hmem
  exact lt_irrefl _ ((h.covers _).mp ⟨key, hmem⟩)

theorem Exact.give (h : Exact names deal) (hnumber : number names.length = names.length)
    (key : K) : Exact (names ++ [key]) (deal.give number key) := by
  have hof (k : K) : (deal.give number key).of k =
      if k = key then insert names.length (deal.of key) else deal.of k := by
    rw [of_give, h.turn, hnumber]
  constructor
  · simp [Deal.give, h.turn]
  · intro k
    rw [hof, List.count_append]
    split_ifs with hk
    · simp [hk, h.notMem key, h.card]
    · simp [Ne.symm hk, h.card]
  · intro k k' hne
    rw [hof, hof]
    split_ifs with hk hk'
    · exact absurd (hk.trans hk'.symm) hne
    · simp [h.notMem k', h.disjoint key k' (hk ▸ hne)]
    · rename_i hk'
      simp [h.notMem k, h.disjoint k key (hk' ▸ hne)]
    · exact h.disjoint k k' hne
  · intro n
    have hold := h.covers n
    simp only [hof, List.length_append, List.length_singleton]
    constructor
    · rintro ⟨k, hk⟩
      split_ifs at hk with heq
      · cases Finset.mem_insert.mp hk with
        | inl hn => omega
        | inr hn => exact Nat.lt_succ_of_lt (hold.mp ⟨key, hn⟩)
      · exact Nat.lt_succ_of_lt (hold.mp ⟨k, hk⟩)
    · intro hn
      cases Nat.lt_succ_iff_lt_or_eq.mp hn with
      | inl hlt =>
        obtain ⟨k, hk⟩ := hold.mpr hlt
        use k
        split_ifs with heq
        · exact Finset.mem_insert_of_mem (heq ▸ hk)
        · exact hk
      | inr heq =>
        use key
        simp [heq]
  · intro k
    have hkeys := h.keys k
    simp only [Deal.give, Dict.get_set, List.mem_append, List.mem_singleton]
    split_ifs with hk
    · simp [hk]
    · simp [hk, hkeys]

theorem exact_foldl (hnumber : ∀ i < names.length, number i = i) :
    Exact names (names.foldl (give number) start) := by
  induction names using List.reverseRecOn with
  | nil => exact Exact.start
  | append_singleton names key ih =>
    rw [List.foldl_concat]
    apply Exact.give
    · apply ih
      intro i hi
      exact hnumber i (by simp; omega)
    · exact hnumber _ (by simp)

theorem foldl_giveTimes {A : Type} (key : A → K) (times : A → ℕ) (l : List A) (deal : Deal K) :
    l.foldl (fun deal a => deal.giveTimes number (times a) (key a)) deal =
      (l.flatMap fun a => List.replicate (times a) (key a)).foldl (give number) deal := by
  rw [List.foldl_flatMap]
  rfl

theorem count_flatMap_replicate {V : Type} (times : V → ℕ) {l : List (K × V)}
    (hl : (l.map Prod.fst).Nodup) (key : K) :
    (l.flatMap fun it => List.replicate (times it.2) it.1).count key =
      ((l.lookup key).map times).getD 0 := by
  induction l with
  | nil => rfl
  | cons it l ih =>
    obtain ⟨hnot, hrest⟩ := List.nodup_cons.mp hl
    rw [List.flatMap_cons, List.count_append, ih hrest, List.lookup_cons]
    by_cases hkey : key = it.1
    · subst hkey
      have hnone : l.lookup it.1 = none := by
        rw [List.lookup_eq_none_iff]
        intro e he
        have hne : it.1 ≠ e.1 := fun heq => hnot (heq ▸ List.mem_map_of_mem he)
        simpa using hne
      simp [hnone]
    · simp [List.count_replicate, Ne.symm hkey, beq_eq_false_iff_ne.mpr hkey]

end Deal

end Rannc
