import Mathlib.Data.List.Nodup
import Mathlib.Tactic

/-!
# Dictionaries

The entries are in the order in which their keys were first set. A key that is set again keeps its
place.
-/
namespace Rannc

/-- In a list without repeated keys, an entry is what its key looks up. -/
theorem lookup_eq_of_mem {K V : Type*} [DecidableEq K] {l : List (K × V)}
    (hl : (l.map Prod.fst).Nodup) {key : K} {value : V} (h : (key, value) ∈ l) :
    l.lookup key = some value := by
  induction l with
  | nil => simp at h
  | cons e l ih =>
    obtain ⟨k, v⟩ := e
    rw [List.map_cons, List.nodup_cons] at hl
    cases List.mem_cons.mp h with
    | inl he =>
      cases he
      simp
    | inr hmem =>
      have hne : (key == k) = false := by
        refine beq_eq_false_iff_ne.mpr ?_
        rintro rfl
        exact hl.1 (List.mem_map.mpr ⟨(key, value), hmem, rfl⟩)
      rw [List.lookup_cons, hne]
      exact ih hl.2 hmem

structure Dict (K V : Type) where
  entries : List (K × V)
  nodup : (entries.map Prod.fst).Nodup

namespace Dict

variable {K V : Type}

def empty : Dict K V := ⟨[], List.nodup_nil⟩

def keys (d : Dict K V) : List K := d.entries.map Prod.fst

def values (d : Dict K V) : List V := d.entries.map Prod.snd

theorem nodup_filter (d : Dict K V) (p : K × V → Bool) :
    ((d.entries.filter p).map Prod.fst).Nodup :=
  d.nodup.sublist (List.filter_sublist.map Prod.fst)

variable [DecidableEq K]

def get (d : Dict K V) (key : K) : Option V := d.entries.lookup key

def set (d : Dict K V) (key : K) (value : V) : Dict K V :=
  if h : key ∈ d.keys then
    { entries := d.entries.map fun e => if e.1 = key then (key, value) else e
      nodup := by
        have hkeys : (d.entries.map fun e => if e.1 = key then (key, value) else e).map Prod.fst =
            d.entries.map Prod.fst := by
          rw [List.map_map]
          apply List.map_congr_left
          intro e _
          dsimp only [Function.comp_apply]
          split_ifs with he
          · exact he.symm
          · rfl
        rw [hkeys]
        exact d.nodup }
  else
    { entries := d.entries ++ [(key, value)]
      nodup := by
        rw [List.map_append]
        exact d.nodup.append (List.nodup_singleton key) (List.disjoint_singleton.mpr h) }

def erase (d : Dict K V) (key : K) : Dict K V :=
  ⟨d.entries.filter fun e => e.1 ≠ key, d.nodup_filter _⟩

/-- What a comprehension over some items makes. -/
def ofList (items : List (K × V)) : Dict K V := items.foldl (fun d e => d.set e.1 e.2) empty

variable {d : Dict K V} {key k : K} {value : V}

theorem mem_keys_iff : key ∈ d.keys ↔ (d.get key).isSome := by
  unfold get keys
  rw [List.lookup_isSome_iff, List.mem_map]
  simp only [beq_iff_eq]
  exact exists_congr fun e => and_congr_right fun _ => eq_comm

theorem get_eq_none_iff : d.get key = none ↔ key ∉ d.keys := by
  rw [mem_keys_iff]
  simp

theorem lookup_map_set (l : List (K × V)) : (l.map fun e => if e.1 = key then (key, value)
    else e).lookup k = if k = key ∧ key ∈ l.map Prod.fst then some value else l.lookup k := by
  induction l with
  | nil => simp
  | cons e l ih =>
    obtain ⟨name, v⟩ := e
    rw [List.map_cons, List.lookup_cons, List.lookup_cons, ih]
    by_cases hk : k = name
    · subst hk
      by_cases hkey : k = key
      · simp [hkey]
      · simp [hkey]
    · have hbeq : (k == name) = false := beq_eq_false_iff_ne.mpr hk
      by_cases hname : name = key
      · subst hname
        simp [hk, hbeq]
      · have hmem : key ∈ ((name, v) :: l).map Prod.fst ↔ key ∈ l.map Prod.fst := by
          simp [Ne.symm hname]
        simp only [hmem]
        rw [if_neg hname, hbeq]

theorem get_set (d : Dict K V) (key k : K) (value : V) :
    (d.set key value).get k = if k = key then some value else d.get k := by
  unfold set
  by_cases h : key ∈ d.keys
  · rw [dif_pos h]
    unfold get
    dsimp only
    rw [lookup_map_set]
    by_cases hk : k = key
    · rw [if_pos ⟨hk, h⟩, if_pos hk]
    · rw [if_neg fun hboth => hk hboth.1, if_neg hk]
  · rw [dif_neg h]
    unfold get
    dsimp only
    rw [List.lookup_append]
    by_cases hk : k = key
    · subst hk
      have hnone : d.entries.lookup k = none := get_eq_none_iff.mpr h
      simp [hnone]
    · simp [hk, beq_eq_false_iff_ne.mpr hk, List.lookup_cons]

@[simp] theorem get_empty (k : K) : (empty : Dict K V).get k = none := rfl

theorem get_foldl_set {items : List (K × V)} (hitems : (items.map Prod.fst).Nodup) (d : Dict K V)
    (k : K) : (items.foldl (fun d e => d.set e.1 e.2) d).get k =
      (items.lookup k).or (d.get k) := by
  induction items generalizing d with
  | nil => rfl
  | cons e items ih =>
    obtain ⟨hnot, hnodup⟩ := List.nodup_cons.mp hitems
    rw [List.foldl_cons, ih hnodup, get_set, List.lookup_cons]
    by_cases hk : k = e.1
    · subst hk
      have hnone : items.lookup e.1 = none := by
        rw [List.lookup_eq_none_iff]
        intro it hit
        have hne : e.1 ≠ it.1 := fun heq => hnot (heq ▸ List.mem_map_of_mem hit)
        simpa using hne
      simp [hnone]
    · simp [hk, beq_eq_false_iff_ne.mpr hk]

theorem get_ofList {items : List (K × V)} (hitems : (items.map Prod.fst).Nodup) (k : K) :
    (ofList items).get k = items.lookup k := by
  unfold ofList
  rw [get_foldl_set hitems, get_empty, Option.or_none]

theorem lookup_filter_key (p : K → Bool) (l : List (K × V)) :
    (l.filter fun e => p e.1).lookup k = if p k then l.lookup k else none := by
  induction l with
  | nil => simp
  | cons e l ih =>
    obtain ⟨name, v⟩ := e
    rw [List.filter_cons]
    by_cases hk : k = name
    · subst hk
      by_cases hp : p k
      · simp [hp]
      · simp [hp, ih]
    · by_cases hp : p name
      · simp [hp, List.lookup_cons, beq_eq_false_iff_ne.mpr hk, ih]
      · simp [hp, List.lookup_cons, beq_eq_false_iff_ne.mpr hk, ih]

theorem get_ofList_filter (d : Dict K V) (p : K → Bool) (k : K) :
    (ofList (d.entries.filter fun e => p e.1)).get k = if p k then d.get k else none := by
  rw [get_ofList (d.nodup_filter _), lookup_filter_key]
  rfl

theorem mem_entries_iff : (key, value) ∈ d.entries ↔ d.get key = some value := by
  constructor
  · intro hmem
    obtain ⟨before, after, hsplit⟩ := List.append_of_mem hmem
    refine List.lookup_eq_some_iff.mpr ⟨before, after, hsplit, fun it hit => ?_⟩
    have hnodup := d.nodup
    rw [hsplit, List.map_append, List.map_cons] at hnodup
    have hdisjoint := (List.nodup_append.mp hnodup).2.2
    have hne := hdisjoint it.1 (List.mem_map_of_mem hit) key List.mem_cons_self
    simpa using hne.symm
  · intro hget
    obtain ⟨before, after, hsplit, -⟩ := List.lookup_eq_some_iff.mp hget
    rw [hsplit]
    exact List.mem_append_right _ List.mem_cons_self

theorem get_erase (d : Dict K V) (key k : K) :
    (d.erase key).get k = if k = key then none else d.get k := by
  have hfilter := lookup_filter_key (fun k => decide (k ≠ key)) (k := k) d.entries
  rw [get, erase, hfilter]
  by_cases hk : k = key
  · simp [hk]
  · simp [hk, get]

theorem mem_values_iff : value ∈ d.values ↔ ∃ key, d.get key = some value := by
  rw [values, List.mem_map]
  constructor
  · rintro ⟨⟨key, v⟩, he, rfl⟩
    exact ⟨key, mem_entries_iff.mp he⟩
  · rintro ⟨key, hget⟩
    exact ⟨(key, value), mem_entries_iff.mpr hget, rfl⟩

theorem get_ofList_map {l : List V} {key : V → K} (hnodup : (l.map key).Nodup) {k : K} {a : V} :
    (ofList (l.map fun a => (key a, a))).get k = some a ↔ a ∈ l ∧ key a = k := by
  have hkeys : ((l.map fun a => (key a, a)).map Prod.fst).Nodup := by
    rwa [List.map_map, show Prod.fst ∘ (fun a => (key a, a)) = key from rfl]
  have hentries : (k, a) ∈ l.map (fun a => (key a, a)) ↔
      (l.map fun a => (key a, a)).lookup k = some a :=
    mem_entries_iff (d := ⟨l.map fun a => (key a, a), hkeys⟩)
  rw [get_ofList hkeys]
  refine hentries.symm.trans ⟨fun hmem => ?_, ?_⟩
  · obtain ⟨b, hb, heq⟩ := List.mem_map.mp hmem
    obtain ⟨rfl, rfl⟩ := Prod.mk.inj heq
    exact ⟨hb, rfl⟩
  · rintro ⟨ha, rfl⟩
    exact List.mem_map_of_mem ha

theorem mem_of_get_ofList {l : List (K × V)} {k : K} {a : V}
    (h : (ofList l).get k = some a) : (k, a) ∈ l := by
  have hfold : ∀ (l : List (K × V)) (d : Dict K V),
      (l.foldl (fun d e => d.set e.1 e.2) d).get k = some a → (k, a) ∈ l ∨ d.get k = some a := by
    intro l
    induction l with
    | nil => exact fun d h => Or.inr h
    | cons e l ih =>
      intro d h
      rcases ih _ h with hmem | hget
      · exact Or.inl (List.mem_cons_of_mem _ hmem)
      · rw [get_set] at hget
        split_ifs at hget with hk
        · obtain rfl := Option.some.inj hget
          exact Or.inl (hk ▸ List.mem_cons_self)
        · exact Or.inr hget
  simpa using hfold l empty h

theorem mem_of_get_ofList_map {l : List V} {key : V → K} {k : K} {a : V}
    (h : (ofList (l.map fun a => (key a, a))).get k = some a) :
    a ∈ l ∧ key a = k := by
  obtain ⟨b, hb, heq⟩ := List.mem_map.mp (mem_of_get_ofList h)
  obtain ⟨rfl, rfl⟩ := Prod.mk.inj heq
  exact ⟨hb, rfl⟩

theorem entries_set_of_not_mem (d : Dict K V) (hkey : key ∉ d.keys) (value : V) :
    (d.set key value).entries = d.entries ++ [(key, value)] := by
  unfold set
  rw [dif_neg hkey]

/-- Items with different keys stay in their order. -/
theorem entries_ofList {items : List (K × V)} (hitems : (items.map Prod.fst).Nodup) :
    (ofList items).entries = items := by
  have hfold : ∀ (d : Dict K V) (items : List (K × V)), (items.map Prod.fst).Nodup →
      (∀ e ∈ items, e.1 ∉ d.keys) →
      (items.foldl (fun d e => d.set e.1 e.2) d).entries = d.entries ++ items := by
    intro d items
    induction items generalizing d with
    | nil => simp
    | cons e items ih =>
      intro hnodup hnew
      obtain ⟨hnot, hnodup⟩ := List.nodup_cons.mp hnodup
      obtain ⟨he, hnew⟩ := List.forall_mem_cons.mp hnew
      have hset := d.entries_set_of_not_mem he e.2
      rw [List.foldl_cons, ih _ hnodup, hset, List.append_assoc, List.singleton_append]
      intro e' he' hmem
      rw [keys, hset, List.map_append, List.mem_append] at hmem
      rcases hmem with hold | heq
      · exact hnew e' he' hold
      · have hkey : e'.1 = e.1 := by simpa using heq
        exact hnot (hkey ▸ List.mem_map_of_mem he')
  exact hfold empty items hitems (by simp [keys, empty])

theorem mem_keys_ofList {items : List (K × V)} :
    k ∈ (ofList items).keys ↔ k ∈ items.map Prod.fst := by
  have hfold : ∀ (items : List (K × V)) (d : Dict K V),
      k ∈ (items.foldl (fun d e => d.set e.1 e.2) d).keys ↔
        k ∈ items.map Prod.fst ∨ k ∈ d.keys := by
    intro items
    induction items with
    | nil => simp
    | cons e items ih =>
      intro d
      have hset : k ∈ (d.set e.1 e.2).keys ↔ k = e.1 ∨ k ∈ d.keys := by
        rw [mem_keys_iff, mem_keys_iff, get_set]
        split_ifs with hk <;> simp [hk]
      rw [List.foldl_cons, ih, hset, List.map_cons, List.mem_cons]
      tauto
  rw [ofList, hfold]
  simp [keys, empty]

variable {A : Type}

/-- Keys paired with the values that `f` has for their partners. -/
def ofZip (keys : List K) (partners : List A) (f : A → Option V) : Dict K V :=
  ofList ((keys.zip partners).filterMap fun e => (f e.2).map (Prod.mk e.1))

omit [DecidableEq K] in
theorem keys_zip_filterMap (keys : List K) (partners : List A) (f : A → Option V) :
    (((keys.zip partners).filterMap fun e => (f e.2).map (Prod.mk e.1)).map Prod.fst).Sublist
      keys := by
  induction keys generalizing partners with
  | nil => exact List.Sublist.refl _
  | cons key keys ih =>
    cases partners with
    | nil => exact List.nil_sublist _
    | cons a partners =>
      rw [List.zip_cons_cons, List.filterMap_cons]
      cases hf : f a with
      | none =>
        dsimp only [Option.map_none]
        exact (ih partners).cons key
      | some v =>
        dsimp only [Option.map_some]
        rw [List.map_cons]
        exact (ih partners).cons_cons key

theorem get_ofZip {keys : List K} (hkeys : keys.Nodup) (partners : List A) (f : A → Option V)
    (k : K) : (ofZip keys partners f).get k =
      if k ∈ keys then (partners[keys.idxOf k]?).bind f else none := by
  unfold ofZip
  rw [get_ofList (hkeys.sublist (keys_zip_filterMap keys partners f))]
  induction keys generalizing partners with
  | nil => rfl
  | cons key keys ih =>
    obtain ⟨hnot, hnodup⟩ := List.nodup_cons.mp hkeys
    cases partners with
    | nil => simp
    | cons a partners =>
      rw [List.zip_cons_cons, List.filterMap_cons, List.idxOf_cons]
      by_cases hk : k = key
      · subst hk
        cases hf : f a with
        | none =>
          dsimp only [Option.map_none]
          rw [ih hnodup, if_neg hnot]
          simp [hf]
        | some v => simp [hf]
      · have hbeq : (k == key) = false := beq_eq_false_iff_ne.mpr hk
        have hbeq' : (key == k) = false := beq_eq_false_iff_ne.mpr (Ne.symm hk)
        have hrest := ih hnodup partners
        have hmem : k ∈ key :: keys ↔ k ∈ keys := by simp [hk]
        simp only [hmem, hbeq', cond_false, List.getElem?_cons_succ]
        rw [← hrest]
        cases hf : f a with
        | none => rfl
        | some v =>
          dsimp only [Option.map_some]
          rw [List.lookup_cons, hbeq]

end Dict

end Rannc
