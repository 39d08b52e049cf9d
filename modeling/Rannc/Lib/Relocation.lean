import Mathlib.Data.Set.Insert
import Rannc.Lib.Grouping

/-!
# Vertices that change their place

Vertices are put into places, and an edge lies between the places of its ends. A vertex goes to a
neighbouring place if only one of its edges leaves the place where it is.
-/
namespace Rannc

theorem filter_or_perm {α : Type} {p q : α → Bool} {l : List α}
    (h : ∀ a ∈ l, p a = true → q a = false) :
    (l.filter fun a => p a || q a).Perm (l.filter p ++ l.filter q) := by
  have hsplit := List.filter_append_perm p (l.filter fun a => p a || q a)
  have hleft : (l.filter fun a => p a || q a).filter p = l.filter p := by
    rw [List.filter_filter]
    refine List.filter_congr fun a _ => ?_
    cases p a <;> simp
  have hright : (l.filter fun a => p a || q a).filter (fun a => !p a) = l.filter q := by
    rw [List.filter_filter]
    refine List.filter_congr fun a ha => ?_
    cases hp : p a with
    | false => simp
    | true => simp [h a ha hp]
  rw [hleft, hright] at hsplit
  exact hsplit.symm

namespace Relocation

variable {V U E : Type} [DecidableEq V] [DecidableEq U] (src tgt : E → V)

/-- The places that an edge lies between. -/
def place (loc : V → U) (e : E) : U × U := (loc (src e), loc (tgt e))

/-- The edge starts or ends at the vertex. -/
def Incident (m : V) (e : E) : Prop := src e = m ∨ tgt e = m

instance (m : V) : DecidablePred (Incident src tgt m) :=
  fun _ => inferInstanceAs (Decidable (_ ∨ _))

/-- The vertex `m` can go from its place to `dest`: only the edge `link` leaves the place, and the
other edges of the vertex will then lie where this one does. -/
structure Movable (edges : List E) (loc : V → U) (m : V) (dest : U) (link : E) : Prop where
  ne : loc m ≠ dest
  ends : place src tgt loc link = (loc m, dest) ∨ place src tgt loc link = (dest, loc m)
  only : (edges.filter fun e => Incident src tgt m e ∧ place src tgt loc e ≠ (loc m, loc m)) =
    [link]
  inside : ∀ e ∈ edges, Incident src tgt m e → place src tgt loc e = (loc m, loc m) →
    place src tgt (Function.update loc m dest) e = place src tgt loc link

namespace Movable

variable {src tgt} {edges : List E} {loc : V → U} {m : V} {dest : U} {link : E}

/-- Where the link is the only edge out of the vertex, no other edge leaves its place. -/
theorem of_leaf (hlink : link ∈ edges) (hsrc : src link = m) (htgt : loc (tgt link) = dest)
    (hne : loc m ≠ dest) (hinside : ∀ e ∈ edges, src e = m → loc (tgt e) ≠ loc m)
    (hout : (edges.filter fun e => src e = m ∧ loc (src e) ≠ loc (tgt e)).length ≤ 1)
    (hin : ∀ e ∈ edges, tgt e = m → loc (src e) = loc m) :
    Movable src tgt edges loc m dest link := by
  have hplace : place src tgt loc link = (loc m, dest) := by rw [place, hsrc, htgt]
  constructor
  case ne => exact hne
  case ends => exact Or.inl hplace
  case only =>
    have hfilter : (edges.filter fun e =>
        Incident src tgt m e ∧ place src tgt loc e ≠ (loc m, loc m)) =
        edges.filter fun e => src e = m ∧ loc (src e) ≠ loc (tgt e) := by
      refine List.filter_congr fun e he => decide_eq_decide.mpr ?_
      constructor
      · rintro ⟨rfl | htgt_m, hout⟩
        · exact ⟨rfl, fun heq => hout (by rw [place, ← heq])⟩
        · exact absurd (by rw [place, hin e he htgt_m, htgt_m]) hout
      · rintro ⟨rfl, hcross⟩
        exact ⟨Or.inl rfl, fun heq => hcross (Prod.mk.inj heq).2.symm⟩
    have hmem : link ∈ edges.filter fun e => src e = m ∧ loc (src e) ≠ loc (tgt e) :=
      List.mem_filter.mpr ⟨hlink, decide_eq_true ⟨hsrc, by rwa [hsrc, htgt]⟩⟩
    rw [hfilter]
    obtain ⟨a, ha⟩ := List.length_eq_one_iff.mp (hout.antisymm (List.length_pos_of_mem hmem))
    rw [ha] at hmem ⊢
    rw [List.mem_singleton.mp hmem]
  case inside =>
    rintro e he (hsrc_m | htgt_m) hplace_e
    · exact absurd (Prod.mk.inj hplace_e).2 (hinside e he hsrc_m)
    · have hsrc_ne : src e ≠ m := fun heq => hinside e he heq (by rw [htgt_m])
      rw [hplace, place, Function.update_of_ne hsrc_ne, htgt_m, Function.update_self,
        (Prod.mk.inj hplace_e).1]

/-- The edges may be read backwards. -/
theorem swap (h : Movable src tgt edges loc m dest link) :
    Movable tgt src edges loc m dest link := by
  have hplace : ∀ (loc : V → U) e, place tgt src loc e = (place src tgt loc e).swap :=
    fun _ _ => rfl
  have hswap : ∀ {q : U × U} {u : U}, q.swap = (u, u) ↔ q = (u, u) := by
    rintro ⟨a, b⟩ u
    simp only [Prod.swap_prod_mk, Prod.mk.injEq]
    exact and_comm
  constructor
  case ne => exact h.ne
  case ends =>
    rw [hplace]
    exact h.ends.symm.imp (congrArg Prod.swap) (congrArg Prod.swap)
  case only =>
    rw [← h.only]
    refine List.filter_congr fun e _ => decide_eq_decide.mpr ?_
    rw [hplace, Ne, hswap]
    exact and_congr_left' or_comm
  case inside =>
    intro e he hinc hin
    rw [hplace, hplace, h.inside e he (Or.symm hinc) (hswap.mp hin)]

theorem link_mem (h : Movable src tgt edges loc m dest link) :
    link ∈ edges ∧ Incident src tgt m link := by
  have hmem : link ∈ edges.filter fun e =>
      Incident src tgt m e ∧ place src tgt loc e ≠ (loc m, loc m) := by
    rw [h.only]
    exact List.mem_singleton_self link
  obtain ⟨hedge, hinc⟩ := List.mem_filter.mp hmem
  exact ⟨hedge, (of_decide_eq_true hinc).1⟩

theorem eq_link (h : Movable src tgt edges loc m dest link) {e : E} (he : e ∈ edges)
    (hinc : Incident src tgt m e) (hout : place src tgt loc e ≠ (loc m, loc m)) : e = link := by
  have hmem : e ∈ edges.filter fun e =>
      Incident src tgt m e ∧ place src tgt loc e ≠ (loc m, loc m) :=
    List.mem_filter.mpr ⟨he, decide_eq_true ⟨hinc, hout⟩⟩
  rw [h.only] at hmem
  exact List.mem_singleton.mp hmem

omit [DecidableEq U] in
theorem place_of_not_incident {e : E} (hinc : ¬ Incident src tgt m e) :
    place src tgt (Function.update loc m dest) e = place src tgt loc e := by
  rw [Incident, not_or] at hinc
  rw [place, place, Function.update_of_ne hinc.1, Function.update_of_ne hinc.2]

theorem place_link (h : Movable src tgt edges loc m dest link) :
    place src tgt (Function.update loc m dest) link = (dest, dest) := by
  have hother : ∀ v, loc v = dest → Function.update loc m dest v = dest := by
    intro v hv
    by_cases hvm : v = m
    · rw [hvm, Function.update_self]
    · rw [Function.update_of_ne hvm, hv]
  have hinc := h.link_mem.2
  cases h.ends with
  | inl hends =>
    obtain ⟨hsrc, htgt⟩ := Prod.mk.inj hends
    have hsrc_m : src link = m := hinc.resolve_right fun heq => h.ne (heq ▸ htgt)
    rw [place, hsrc_m, Function.update_self, hother _ htgt]
  | inr hends =>
    obtain ⟨hsrc, htgt⟩ := Prod.mk.inj hends
    have htgt_m : tgt link = m := hinc.resolve_left fun heq => h.ne (heq ▸ hsrc)
    rw [place, htgt_m, Function.update_self, hother _ hsrc]

theorem place_link_ne (h : Movable src tgt edges loc m dest link) (u : U) :
    place src tgt loc link ≠ (u, u) := by
  intro heq
  cases h.ends with
  | inl hends =>
    obtain ⟨h1, h2⟩ := Prod.mk.inj (hends.symm.trans heq)
    exact h.ne (h1.trans h2.symm)
  | inr hends =>
    obtain ⟨h1, h2⟩ := Prod.mk.inj (hends.symm.trans heq)
    exact h.ne (h2.trans h1.symm)

theorem cases (h : Movable src tgt edges loc m dest link) {e : E} (he : e ∈ edges) :
    (Incident src tgt m e ∧ place src tgt loc e = (loc m, loc m) ∧
        place src tgt (Function.update loc m dest) e = place src tgt loc link) ∨
      e = link ∨ (¬ Incident src tgt m e ∧
        place src tgt (Function.update loc m dest) e = place src tgt loc e) := by
  by_cases hinc : Incident src tgt m e
  · by_cases hin : place src tgt loc e = (loc m, loc m)
    · exact Or.inl ⟨hinc, hin, h.inside e he hinc hin⟩
    · exact Or.inr (Or.inl (h.eq_link he hinc hin))
  · exact Or.inr (Or.inr ⟨hinc, place_of_not_incident hinc⟩)

theorem filter_origin (h : Movable src tgt edges loc m dest link) :
    (edges.filter fun e => place src tgt (Function.update loc m dest) e = (loc m, loc m)) =
      (edges.filter fun e => place src tgt loc e = (loc m, loc m)).filter
        fun e => ¬ Incident src tgt m e := by
  rw [List.filter_filter]
  refine List.filter_congr fun e he => ?_
  rw [← Bool.decide_and]
  refine decide_eq_decide.mpr ?_
  rcases h.cases he with ⟨hinc, -, hnew⟩ | rfl | ⟨hinc, hnew⟩
  · simp [hnew, hinc, h.place_link_ne (loc m)]
  · have hne : (dest, dest) ≠ (loc m, loc m) := fun heq => h.ne (Prod.mk.inj heq).1.symm
    simp [h.place_link, hne, h.link_mem.2]
  · simp [hnew, hinc]

theorem filter_dest (h : Movable src tgt edges loc m dest link) :
    (edges.filter fun e => place src tgt (Function.update loc m dest) e = (dest, dest)).Perm
      ((edges.filter fun e => place src tgt loc e = (dest, dest)) ++ [link]) := by
  have hnew : (edges.filter fun e =>
      place src tgt (Function.update loc m dest) e = (dest, dest)) =
      edges.filter fun e => decide (place src tgt loc e = (dest, dest)) ||
        decide (Incident src tgt m e ∧ place src tgt loc e ≠ (loc m, loc m)) := by
    refine List.filter_congr fun e he => ?_
    rw [← Bool.decide_or]
    refine decide_eq_decide.mpr ?_
    rcases h.cases he with ⟨-, hin, hnew⟩ | rfl | ⟨hinc, hnew⟩
    · have hne : (loc m, loc m) ≠ (dest, dest) := fun heq => h.ne (Prod.mk.inj heq).1
      simp [hin, hnew, h.place_link_ne dest, hne]
    · simp [h.place_link, h.link_mem.2, h.place_link_ne (loc m)]
    · simp [hnew, hinc]
  rw [hnew, ← h.only]
  apply filter_or_perm
  intro e he hdest
  have hdest := of_decide_eq_true hdest
  refine decide_eq_false fun ⟨hinc, hout⟩ => ?_
  exact h.place_link_ne dest (h.eq_link he hinc hout ▸ hdest)

theorem filter_link (h : Movable src tgt edges loc m dest link) :
    (edges.filter fun e => place src tgt (Function.update loc m dest) e =
        place src tgt loc link).Perm
      ((edges.filter fun e => place src tgt loc e = (loc m, loc m)).filter
          (fun e => Incident src tgt m e) ++
        (edges.filter fun e => place src tgt loc e = place src tgt loc link).filter
          fun e => ¬ Incident src tgt m e) := by
  have hnew : (edges.filter fun e =>
      place src tgt (Function.update loc m dest) e = place src tgt loc link) =
      edges.filter fun e =>
        (decide (Incident src tgt m e) && decide (place src tgt loc e = (loc m, loc m))) ||
          (decide (¬ Incident src tgt m e) &&
            decide (place src tgt loc e = place src tgt loc link)) := by
    refine List.filter_congr fun e he => ?_
    rw [← Bool.decide_and, ← Bool.decide_and, ← Bool.decide_or]
    refine decide_eq_decide.mpr ?_
    rcases h.cases he with ⟨hinc, hin, hnew⟩ | rfl | ⟨hinc, hnew⟩
    · simp [hinc, hin, hnew]
    · simp [h.place_link, h.link_mem.2, h.place_link_ne (loc m), (h.place_link_ne dest).symm]
    · simp [hinc, hnew]
  rw [hnew, List.filter_filter, List.filter_filter]
  apply filter_or_perm
  intro e he hinc
  simp only [Bool.and_eq_true, decide_eq_true_eq] at hinc
  simp [hinc.1]

theorem filter_other (h : Movable src tgt edges loc m dest link) {q : U × U}
    (horigin : q ≠ (loc m, loc m)) (hdest : q ≠ (dest, dest))
    (hlink : q ≠ place src tgt loc link) :
    (edges.filter fun e => place src tgt (Function.update loc m dest) e = q) =
      edges.filter fun e => place src tgt loc e = q := by
  refine List.filter_congr fun e he => decide_eq_decide.mpr ?_
  rcases h.cases he with ⟨-, hin, hnew⟩ | rfl | ⟨-, hnew⟩
  · rw [hnew, hin]
    exact iff_of_false hlink.symm horigin.symm
  · rw [h.place_link]
    exact iff_of_false hdest.symm hlink.symm
  · rw [hnew]

end Movable

section Residents

variable {N : Type} {key : N → V} {residents : List N} {loc : V → U} {m : N} {dest : U}

theorem filter_key_eq (hnodup : (residents.map key).Nodup) (hm : m ∈ residents) :
    (residents.filter fun n => key n = key m) = [m] := by
  induction residents with
  | nil => exact absurd hm List.not_mem_nil
  | cons n residents ih =>
    obtain ⟨hnot, hnodup⟩ := List.nodup_cons.mp hnodup
    rcases List.mem_cons.mp hm with rfl | hm
    · have hnone : (residents.filter fun n => key n = key m) = [] :=
        List.filter_eq_nil_iff.mpr fun n hn heq =>
          hnot (of_decide_eq_true heq ▸ List.mem_map_of_mem hn)
      rw [List.filter_cons_of_pos (by simp), hnone]
    · have hne : key n ≠ key m := fun heq => hnot (heq ▸ List.mem_map_of_mem hm)
      rw [List.filter_cons_of_neg (by simpa using hne), ih hnodup hm]

theorem residents_origin (hne : loc (key m) ≠ dest) :
    (residents.filter fun n => Function.update loc (key m) dest (key n) = loc (key m)) =
      (residents.filter fun n => loc (key n) = loc (key m)).filter fun n => key n ≠ key m := by
  rw [List.filter_filter]
  refine List.filter_congr fun n _ => ?_
  by_cases hn : key n = key m
  · simp [hn, hne.symm]
  · simp [hn]

theorem residents_dest (hnodup : (residents.map key).Nodup) (hm : m ∈ residents)
    (hne : loc (key m) ≠ dest) :
    (residents.filter fun n => Function.update loc (key m) dest (key n) = dest).Perm
      ((residents.filter fun n => loc (key n) = dest) ++ [m]) := by
  have hnew : (residents.filter fun n => Function.update loc (key m) dest (key n) = dest) =
      residents.filter fun n => decide (loc (key n) = dest) || decide (key n = key m) := by
    refine List.filter_congr fun n _ => ?_
    by_cases hn : key n = key m
    · simp [hn]
    · simp [hn]
  rw [hnew, ← filter_key_eq hnodup hm]
  apply filter_or_perm
  intro n _ hdest
  exact decide_eq_false fun heq => hne (heq ▸ of_decide_eq_true hdest)

theorem residents_other {u : U} (horigin : u ≠ loc (key m)) (hdest : u ≠ dest) :
    (residents.filter fun n => Function.update loc (key m) dest (key n) = u) =
      residents.filter fun n => loc (key n) = u := by
  refine List.filter_congr fun n _ => ?_
  by_cases hn : key n = key m
  · simp [hn, hdest.symm, horigin.symm]
  · simp [hn]

end Residents

/-- The vertices that are not done are where they were, and so are the other ends of the edges that
left their places, unless they have come to these places themselves. -/
structure Tracked (edges : List E) (start loc : V → U) (done : Set V) : Prop where
  stay : ∀ v ∉ done, loc v = start v
  ahead : ∀ e ∈ edges, start (src e) ≠ start (tgt e) → src e ∉ done →
    loc (tgt e) = start (src e) ∨ loc (tgt e) = start (tgt e)
  behind : ∀ e ∈ edges, start (src e) ≠ start (tgt e) → tgt e ∉ done →
    loc (src e) = start (src e) ∨ loc (src e) = start (tgt e)

namespace Tracked

variable {src tgt} {edges : List E} {start loc : V → U} {done : Set V} {m : V} {dest : U} {link : E}

omit [DecidableEq V] [DecidableEq U] in
theorem refl (edges : List E) (start : V → U) : Tracked src tgt edges start start ∅ :=
  ⟨fun _ _ => rfl, fun _ _ _ _ => Or.inr rfl, fun _ _ _ _ => Or.inl rfl⟩

omit [DecidableEq V] [DecidableEq U] in
theorem skip (h : Tracked src tgt edges start loc done) (m : V) :
    Tracked src tgt edges start loc (insert m done) :=
  ⟨fun v hv => h.stay v fun hmem => hv (Set.mem_insert_of_mem m hmem),
    fun e he hne hsrc => h.ahead e he hne fun hmem => hsrc (Set.mem_insert_of_mem m hmem),
    fun e he hne htgt => h.behind e he hne fun hmem => htgt (Set.mem_insert_of_mem m hmem)⟩

/-- A vertex moves along its link, to the place of the other end. -/
theorem move (h : Tracked src tgt edges start loc done) (hm : m ∉ done)
    (hmove : Movable src tgt edges loc m dest link) :
    Tracked src tgt edges start (Function.update loc m dest) (insert m done) := by
  have hstay : ∀ v ∉ insert m done, v ≠ m ∧ v ∉ done := fun v hv =>
    ⟨fun heq => hv (heq ▸ Set.mem_insert v done), fun hmem => hv (Set.mem_insert_of_mem m hmem)⟩
  have hm_start := h.stay m hm
  constructor
  case stay =>
    intro v hv
    obtain ⟨hne, hv⟩ := hstay v hv
    rw [Function.update_of_ne hne, h.stay v hv]
  case ahead =>
    intro e he hne hsrc
    obtain ⟨hsrc_ne, hsrc⟩ := hstay _ hsrc
    have hsrc_start := h.stay _ hsrc
    by_cases htgt : tgt e = m
    · rw [htgt, Function.update_self]
      rw [htgt] at hne
      have hout : place src tgt loc e ≠ (loc m, loc m) := by
        intro heq
        exact hne (hsrc_start.symm.trans ((Prod.mk.inj heq).1.trans hm_start))
      obtain rfl := hmove.eq_link he (Or.inr htgt) hout
      have hplace : place src tgt loc e = (start (src e), loc m) := by
        rw [place, hsrc_start, htgt]
      rcases hmove.ends with hends | hends
      · have heq := (Prod.mk.inj (hplace.symm.trans hends)).1
        exact absurd (heq.trans hm_start) hne
      · exact Or.inl (Prod.mk.inj (hplace.symm.trans hends)).1.symm
    · rw [Function.update_of_ne htgt]
      exact h.ahead e he hne hsrc
  case behind =>
    intro e he hne htgt
    obtain ⟨htgt_ne, htgt⟩ := hstay _ htgt
    have htgt_start := h.stay _ htgt
    by_cases hsrc : src e = m
    · rw [hsrc, Function.update_self]
      rw [hsrc] at hne
      have hout : place src tgt loc e ≠ (loc m, loc m) := by
        intro heq
        exact hne (hm_start.symm.trans ((Prod.mk.inj heq).2.symm.trans htgt_start))
      obtain rfl := hmove.eq_link he (Or.inl hsrc) hout
      have hplace : place src tgt loc e = (loc m, start (tgt e)) := by
        rw [place, htgt_start, hsrc]
      rcases hmove.ends with hends | hends
      · exact Or.inr (Prod.mk.inj (hplace.symm.trans hends)).2.symm
      · have heq := (Prod.mk.inj (hplace.symm.trans hends)).2
        exact absurd (hm_start.symm.trans heq.symm) hne
    · rw [Function.update_of_ne hsrc]
      exact h.behind e he hne htgt

end Tracked

end Relocation

end Rannc
