import Mathlib.Data.List.Nodup
import Mathlib.Data.List.Perm.Basic
import Mathlib.Algebra.BigOperators.Group.List.Basic
import Mathlib.Algebra.GroupWithZero.Nat
import Mathlib.Algebra.Order.BigOperators.Group.List

/-!
# Grouping by keys

What is said about the elements of a list by their keys, and about lists that are kept by keys.
-/
namespace Rannc

section Keys

variable {α β : Type} [DecidableEq β] {key : α → β}

theorem filter_perm_flatMap (key : α → β) {keys : List β} (hkeys : keys.Nodup) (l : List α) :
    (l.filter fun a => key a ∈ keys).Perm (keys.flatMap fun k => l.filter fun a => key a = k) := by
  induction keys with
  | nil => simp
  | cons k keys ih =>
    obtain ⟨hk, hkeys⟩ := List.nodup_cons.mp hkeys
    have hsplit := List.filter_append_perm (fun a => decide (key a = k))
      (l.filter fun a => key a ∈ k :: keys)
    have hfirst : (l.filter fun a => key a ∈ k :: keys).filter (fun a => key a = k) =
        l.filter fun a => key a = k := by
      rw [List.filter_filter]
      refine List.filter_congr fun a _ => ?_
      by_cases ha : key a = k
      · simp [ha]
      · simp [ha]
    have hrest : (l.filter fun a => key a ∈ k :: keys).filter (fun a => !decide (key a = k)) =
        l.filter fun a => key a ∈ keys := by
      rw [List.filter_filter]
      refine List.filter_congr fun a _ => ?_
      by_cases ha : key a = k
      · simp [ha, hk]
      · simp [ha]
    rw [hfirst, hrest] at hsplit
    rw [List.flatMap_cons]
    exact hsplit.symm.trans ((ih hkeys).append_left _)

theorem eq_one_of_sum_eq_length {l : List ℕ} (hpos : ∀ n ∈ l, 0 < n) (hsum : l.sum ≤ l.length) :
    ∀ n ∈ l, n = 1 := by
  induction l with
  | nil => simp
  | cons n l ih =>
    have hle : l.length ≤ l.sum := List.length_le_sum_of_one_le l
      fun m hm => hpos m (List.mem_cons_of_mem _ hm)
    have hn := hpos n List.mem_cons_self
    rw [List.sum_cons, List.length_cons] at hsum
    have hrest := ih (fun m hm => hpos m (List.mem_cons_of_mem _ hm)) (by omega)
    intro m hm
    cases hm with
    | head => omega
    | tail _ hm => exact hrest m hm

theorem flatMap_appendTo_perm {map : List (β × List α)} (hkeys : (map.map Prod.fst).Nodup) {k : β}
    (hk : k ∈ map.map Prod.fst) (a : α) :
    ((map.map fun it => if it.1 = k then (it.1, it.2 ++ [a]) else it).flatMap Prod.snd).Perm
      (map.flatMap Prod.snd ++ [a]) := by
  induction map with
  | nil => exact absurd hk List.not_mem_nil
  | cons it map ih =>
    obtain ⟨hit, hkeys⟩ := List.nodup_cons.mp hkeys
    rw [List.map_cons, List.flatMap_cons, List.flatMap_cons]
    by_cases heq : it.1 = k
    · have hsame : (map.map fun it => if it.1 = k then (it.1, it.2 ++ [a]) else it) = map := by
        rw [List.map_congr_left fun it' hit' => if_neg ?_, List.map_id']
        intro heq'
        exact hit (heq.trans heq'.symm ▸ List.mem_map_of_mem hit')
      rw [if_pos heq, hsame, List.append_assoc, List.append_assoc]
      exact List.perm_append_comm.append_left _
    · have hk' : k ∈ map.map Prod.fst := by simpa [Ne.symm heq] using hk
      rw [if_neg heq, List.append_assoc]
      exact (ih hkeys hk').append_left _

theorem filter_flatMap_key (key : α → β) {map : List (β × List α)}
    (hkeys : (map.map Prod.fst).Nodup) (hkey : ∀ it ∈ map, ∀ a ∈ it.2, key a = it.1)
    {it : β × List α} (hit : it ∈ map) :
    ((map.flatMap Prod.snd).filter fun a => key a = it.1) = it.2 := by
  induction map with
  | nil => exact absurd hit List.not_mem_nil
  | cons it' map ih =>
    obtain ⟨hnew, hkeys⟩ := List.nodup_cons.mp hkeys
    obtain ⟨hkey', hrest⟩ := List.forall_mem_cons.mp hkey
    rw [List.flatMap_cons, List.filter_append]
    rcases List.mem_cons.mp hit with rfl | hit
    · have hnone : ((map.flatMap Prod.snd).filter fun a => key a = it.1) = [] := by
        refine List.filter_eq_nil_iff.mpr fun a ha heq => ?_
        obtain ⟨it', hit', ha⟩ := List.mem_flatMap.mp ha
        exact hnew ((of_decide_eq_true heq) ▸ hrest it' hit' a ha ▸ List.mem_map_of_mem hit')
      rw [hnone, List.append_nil, List.filter_eq_self]
      exact fun a ha => decide_eq_true (hkey' a ha)
    · have hnone : (it'.2.filter fun a => key a = it.1) = [] := by
        refine List.filter_eq_nil_iff.mpr fun a ha heq => hnew ?_
        rw [← hkey' a ha, of_decide_eq_true heq]
        exact List.mem_map_of_mem hit
      rw [hnone, List.nil_append]
      exact ih hkeys hrest hit

theorem flatMap_perm_of_filter (key : α → β) (map : List (β × List α)) {l : List α}
    (hkeys : (map.map Prod.fst).Nodup)
    (hheld : ∀ it ∈ map, it.2.Perm (l.filter fun a => key a = it.1))
    (hall : ∀ a ∈ l, key a ∈ map.map Prod.fst) : (map.flatMap Prod.snd).Perm l := by
  have hfilter : (l.filter fun a => key a ∈ map.map Prod.fst) = l :=
    List.filter_eq_self.mpr fun a ha => decide_eq_true (hall a ha)
  have hperm := filter_perm_flatMap key hkeys l
  rw [hfilter, List.flatMap_map] at hperm
  exact (List.Perm.flatMap_left map hheld).trans hperm.symm

end Keys

theorem perm_of_map_perm {α β : Type} {key : α → β} {l l' : List α} (hsub : ∀ a ∈ l, a ∈ l')
    (hnodup : (l'.map key).Nodup) (h : (l.map key).Perm (l'.map key)) : l.Perm l' := by
  have hl : l.Nodup := List.Nodup.of_map key (h.nodup_iff.mpr hnodup)
  refine (List.perm_ext_iff_of_nodup hl (List.Nodup.of_map key hnodup)).mpr
    fun a => ⟨hsub a, fun ha => ?_⟩
  obtain ⟨b, hb, hkey⟩ := List.mem_map.mp (h.mem_iff.mpr (List.mem_map_of_mem ha))
  exact List.inj_on_of_nodup_map hnodup (hsub b hb) ha hkey ▸ hb

end Rannc
