import Rannc.Lib.Probe
import Mathlib.Data.String.Basic
import Mathlib.Tactic

/-!
# Tags of communicators and routes

Every rank keeps the tags that it has given to keys, and the set of tags that are used. The ranks
look up the same keys in the same order, but the keys of routes are only looked up by rank 0, which
hands its used tags to the others before they go on. What tags these keys have is not handed over.
-/
namespace Rannc

def RANNC_TAG_UB : ℤ := 30000

/-- The keys of the three maps. -/
inductive TagKey
  | param (param_id : ℤ)
  | value (name : String)
  | ranks (ranks : Finset ℕ)
  deriving DecidableEq

/-- The absolute value of the least `int` is negative. -/
def generateTag (hash : BitVec 32) : ℤ := hash.abs.toInt.tmod RANNC_TAG_UB

def nextTag (tag : ℤ) : ℤ := (tag + 1).tmod RANNC_TAG_UB

structure TagMap where
  map : TagKey → Option ℤ
  tags : Finset ℤ

namespace TagMap

variable (hash : TagKey → BitVec 32) (m : TagMap)

def empty : TagMap := ⟨fun _ => none, ∅⟩

/-- The tag of the hash or the next one that is free. There are enough turns for a free tag to be
found if there is one. -/
def generate (key : TagKey) : Option ℤ :=
  probe nextTag m.tags (m.tags.card + 1) (generateTag (hash key))

def getTag (key : TagKey) : Option (ℤ × TagMap) :=
  match m.map key with
  | some tag => some (tag, m)
  | none => do
    let tag ← m.generate hash key
    return (tag, ⟨Function.update m.map key (some tag), insert tag m.tags⟩)

def getParamTag (param_id : ℤ) : Option (ℤ × TagMap) := m.getTag hash (.param param_id)

def getRankSetTag (ranks : Finset ℕ) : Option (ℤ × TagMap) := m.getTag hash (.ranks ranks)

def getStrTag (name : String) : Option (ℤ × TagMap) := m.getTag hash (.value name)

end TagMap

/-- The maps of rank 0 and of the other ranks. -/
structure TagWorld where
  root : TagMap
  others : List TagMap

/-- A key that all ranks look up, one that only rank 0 looks up, or the handing over of the used
tags. -/
inductive TagEvent
  | common (key : TagKey)
  | route (key : TagKey)
  | sync
  deriving DecidableEq

/-- The tags that the ranks got for a key. -/
structure Lookup where
  key : TagKey
  tags : List ℤ

namespace TagWorld

variable (hash : TagKey → BitVec 32) (w : TagWorld)

def init (size : ℕ) : TagWorld := ⟨TagMap.empty, List.replicate (size - 1) TagMap.empty⟩

def sync : TagWorld :=
  { w with others := w.others.map fun m => { m with tags := w.root.tags } }

def common (key : TagKey) : Option (List ℤ × TagWorld) := do
  let (tag, root) ← w.root.getTag hash key
  let res ← w.others.mapM fun m => m.getTag hash key
  return (tag :: res.map Prod.fst, ⟨root, res.map Prod.snd⟩)

def route (key : TagKey) : Option (ℤ × TagWorld) := do
  let (tag, root) ← w.root.getTag hash key
  return (tag, { w with root := root })

def step (st : TagWorld × List Lookup) : TagEvent → Option (TagWorld × List Lookup)
  | .common key => do
    let (tags, w) ← st.1.common hash key
    return (w, st.2 ++ [⟨key, tags⟩])
  | .route key => do
    let (tag, w) ← st.1.route hash key
    return (w, st.2 ++ [⟨key, [tag]⟩])
  | .sync => some (st.1.sync, st.2)

def run (size : ℕ) (history : List TagEvent) : Option (TagWorld × List Lookup) :=
  history.foldlM (step hash) (init size, [])

end TagWorld

theorem generateTag_lt (hash : BitVec 32) :
    -RANNC_TAG_UB < generateTag hash ∧ generateTag hash < RANNC_TAG_UB := by
  unfold generateTag
  constructor
  · exact Int.lt_tmod_of_pos _ (by decide)
  · exact Int.tmod_lt_of_pos _ (by decide)

theorem generateTag_nonneg_iff (hash : BitVec 32) :
    0 ≤ generateTag hash ↔ hash ≠ BitVec.intMin 32 := by
  unfold generateTag
  constructor
  · rintro h rfl
    exact absurd h (by decide)
  · intro h
    apply Int.tmod_nonneg
    rw [BitVec.toInt_abs_eq_natAbs_of_ne_intMin h]
    exact Int.natCast_nonneg _

theorem nextTag_of_nonneg {tag : ℤ} (h : 0 ≤ tag + 1) : nextTag tag = (tag + 1) % RANNC_TAG_UB :=
  Int.tmod_eq_emod_of_nonneg h

theorem nextTag_of_neg {tag : ℤ} (h : tag + 1 < 0) (hlt : -RANNC_TAG_UB < tag) :
    nextTag tag = tag + 1 := by
  have hpos : (-(tag + 1)).tmod RANNC_TAG_UB = -(tag + 1) :=
    Int.tmod_eq_of_lt (by omega) (by unfold RANNC_TAG_UB at *; omega)
  rw [Int.neg_tmod] at hpos
  exact Int.neg_inj.mp hpos

theorem nextTag_iterate {tag : ℤ} (hlt : -RANNC_TAG_UB < tag ∧ tag < RANNC_TAG_UB) {i : ℕ}
    (hi : (i : ℤ) < RANNC_TAG_UB) :
    nextTag^[i] tag = if tag < 0 then tag + i else (tag + i) % RANNC_TAG_UB := by
  induction i with
  | zero =>
    rw [Function.iterate_zero_apply, Nat.cast_zero, add_zero]
    unfold RANNC_TAG_UB at *
    split_ifs <;> omega
  | succ i ih =>
    rw [Function.iterate_succ_apply', ih (by omega)]
    by_cases hneg : tag < 0
    · rw [if_pos hneg, if_pos hneg]
      by_cases hnext : tag + i + 1 < 0
      · rw [nextTag_of_neg hnext (by omega)]
        push_cast
        ring
      · rw [nextTag_of_nonneg (by omega)]
        unfold RANNC_TAG_UB at *
        omega
    · rw [if_neg hneg, if_neg hneg, nextTag_of_nonneg]
      · unfold RANNC_TAG_UB at *
        omega
      · unfold RANNC_TAG_UB at *
        omega

theorem nextTag_injOn {tag : ℤ} (hlt : -RANNC_TAG_UB < tag ∧ tag < RANNC_TAG_UB) {n : ℕ}
    (hn : (n : ℤ) ≤ RANNC_TAG_UB) : Set.InjOn (fun i => nextTag^[i] tag) (Finset.range n) := by
  intro i hi j hj heq
  have hi' : i < n := Finset.mem_range.mp hi
  have hj' : j < n := Finset.mem_range.mp hj
  dsimp only at heq
  rw [nextTag_iterate hlt (by omega), nextTag_iterate hlt (by omega)] at heq
  unfold RANNC_TAG_UB at *
  split_ifs at heq <;> omega

namespace TagMap

variable {hash : TagKey → BitVec 32} {m : TagMap} {key : TagKey} {tag : ℤ}

variable (hash key) in
theorem exists_generate (hcard : (m.tags.card : ℤ) < RANNC_TAG_UB) :
    ∃ tag, m.generate hash key = some tag :=
  exists_probe_of_injOn (nextTag_injOn (generateTag_lt _) (by push_cast; omega))

theorem generate_notMem (h : m.generate hash key = some tag) : tag ∉ m.tags :=
  probe_notMem h

/-- A tag that is new and that MPI accepts. -/
def GeneratesFresh (hash : TagKey → BitVec 32) (m : TagMap) (key : TagKey) : Prop :=
  ∃ tag, m.generate hash key = some tag ∧ tag ∉ m.tags ∧ 0 ≤ tag ∧ tag < RANNC_TAG_UB

/-- The probe leaves the negative tags only when all of them from the first on are used. -/
theorem generatesFresh_iff (hash : TagKey → BitVec 32) (m : TagMap) (key : TagKey)
    (hcard : (m.tags.card : ℤ) < RANNC_TAG_UB) :
    GeneratesFresh hash m key ↔ hash key ≠ BitVec.intMin 32 ∨
      ∀ t, generateTag (BitVec.intMin 32) ≤ t → t < 0 → t ∈ m.tags := by
  obtain ⟨tag, hgen⟩ := exists_generate hash key hcard
  obtain ⟨i, hi, htag, hused⟩ := probe_eq_iterate hgen
  have hlt := generateTag_lt (hash key)
  have hiUB : (i : ℤ) < RANNC_TAG_UB := by omega
  rw [nextTag_iterate hlt hiUB] at htag
  have hfresh : GeneratesFresh hash m key ↔ 0 ≤ tag := by
    constructor
    · rintro ⟨tag', hgen', -, hnonneg, -⟩
      exact Option.some.inj (hgen.symm.trans hgen') ▸ hnonneg
    · intro hnonneg
      refine ⟨tag, hgen, generate_notMem hgen, hnonneg, ?_⟩
      unfold RANNC_TAG_UB at *
      split_ifs at htag <;> omega
  rw [hfresh]
  by_cases hhash : hash key = BitVec.intMin 32
  · have hneg : generateTag (hash key) < 0 := by
      rw [hhash]
      decide
    rw [if_pos hneg] at htag
    rw [hhash] at htag hlt
    constructor
    · intro hnonneg
      refine Or.inr fun t ht ht0 => ?_
      obtain ⟨j, rfl⟩ : ∃ j : ℕ, t = generateTag (BitVec.intMin 32) + j :=
        ⟨(t - generateTag (BitVec.intMin 32)).toNat, by omega⟩
      have hmem := hused j (by omega)
      rwa [hhash, nextTag_iterate hlt (by omega), if_pos (hhash ▸ hneg)] at hmem
    · rintro (hne | hall)
      · exact absurd hhash hne
      · by_contra hnonneg
        exact generate_notMem hgen (hall tag (by omega) (not_le.mp hnonneg))
  · have hnonneg := (generateTag_nonneg_iff (hash key)).mpr hhash
    rw [if_neg (not_lt.mpr hnonneg)] at htag
    refine iff_of_true ?_ (Or.inl hhash)
    rw [← htag]
    exact Int.emod_nonneg _ (by decide)

/-- The identifier of a parameter is its own hash, cut to 32 bits. -/
def paramHash : TagKey → BitVec 32
  | .param param_id => BitVec.ofInt 32 param_id
  | _ => 0

/-- Three parameters have tags, the last one a negative tag. -/
def threeTags : TagMap where
  map
    | .param 0 => some 0
    | .param 30000 => some 1
    | .param 2147483648 => some (-23648)
    | _ => none
  tags := {0, 1, -23648}

theorem generatesFresh_iff_three :
    ¬GeneratesFresh paramHash threeTags (.param 6442450944) ∧
      GeneratesFresh paramHash threeTags (.param 60000) ∧
      GeneratesFresh paramHash { threeTags with tags := Finset.Ico (-23648) 2 }
        (.param 2147483648) := by
  refine ⟨fun h => ?_, ?_, ?_⟩
  · rcases (generatesFresh_iff paramHash threeTags _ (by decide)).mp h with hne | hall
    · exact hne (by decide)
    · exact absurd (hall (-1) (by decide) (by decide)) (by decide)
  · exact (generatesFresh_iff paramHash threeTags _ (by decide)).mpr (Or.inl (by decide))
  · have hcard : ((Finset.Ico (-23648 : ℤ) 2).card : ℤ) < RANNC_TAG_UB := by
      rw [Int.card_Ico]
      decide
    refine (generatesFresh_iff paramHash { threeTags with tags := _ } _ hcard).mpr
      (Or.inr fun t ht ht0 => ?_)
    have hfirst : generateTag (BitVec.intMin 32) = -23648 := by decide
    rw [hfirst] at ht
    exact Finset.mem_Ico.mpr ⟨ht, by omega⟩

theorem not_generatesFresh :
    ¬∀ (hash : TagKey → BitVec 32) (m : TagMap) (key : TagKey),
      (m.tags.card : ℤ) < RANNC_TAG_UB → GeneratesFresh hash m key := by
  intro h
  obtain ⟨tag, hgen, -, hnonneg, -⟩ :=
    h paramHash TagMap.empty (.param 2147483648) (by decide)
  have hneg : TagMap.empty.generate paramHash (.param 2147483648) = some (-23648) := by
    decide
  obtain rfl := Option.some.inj (hgen.symm.trans hneg)
  exact absurd hnonneg (by decide)

/-- A rank takes a tag for a key. -/
def addTag (m : TagMap) (key : TagKey) (tag : ℤ) : TagMap :=
  ⟨Function.update m.map key (some tag), insert tag m.tags⟩

theorem getTag_of_some (h : m.map key = some tag) : m.getTag hash key = some (tag, m) := by
  unfold getTag
  rw [h]

theorem getTag_of_none (h : m.map key = none) (hgen : m.generate hash key = some tag) :
    m.getTag hash key = some (tag, m.addTag key tag) := by
  unfold getTag
  rw [h]
  dsimp only
  rw [hgen]
  rfl

theorem addTag_map_self : (m.addTag key tag).map key = some tag :=
  Function.update_self ..

theorem addTag_map_of_ne {k : TagKey} (h : k ≠ key) : (m.addTag key tag).map k = m.map k :=
  Function.update_of_ne h ..

theorem addTag_map_kept (hnew : m.map key = none) {k : TagKey} {t : ℤ}
    (h : m.map k = some t) : (m.addTag key tag).map k = some t := by
  apply (addTag_map_of_ne _).trans h
  rintro rfl
  exact nomatch hnew.symm.trans h

theorem addTag_map_eq_some {k : TagKey} {t : ℤ} (h : (m.addTag key tag).map k = some t) :
    k = key ∧ t = tag ∨ k ≠ key ∧ m.map k = some t := by
  by_cases hk : k = key
  · rw [hk, addTag_map_self] at h
    exact Or.inl ⟨hk, (Option.some.inj h).symm⟩
  · rw [addTag_map_of_ne hk] at h
    exact Or.inr ⟨hk, h⟩

/-- The tags of a rank are those that it gave, each to one key. -/
structure Unique (m : TagMap) : Prop where
  injective : ∀ k k' t, m.map k = some t → m.map k' = some t → k = k'
  used : ∀ t, t ∈ m.tags ↔ ∃ k, m.map k = some t

theorem Unique.addTag (h : m.Unique) (hkey : m.map key = none) (htag : tag ∉ m.tags) :
    (m.addTag key tag).Unique := by
  have hfree : ∀ k, m.map k ≠ some tag := fun k hk => htag ((h.used tag).mpr ⟨k, hk⟩)
  constructor
  · intro k k' t hk hk'
    cases addTag_map_eq_some hk with
    | inl hnew =>
      cases addTag_map_eq_some hk' with
      | inl hnew' => exact hnew.1.trans hnew'.1.symm
      | inr hold' => exact absurd (hnew.2 ▸ hold'.2) (hfree k')
    | inr hold =>
      cases addTag_map_eq_some hk' with
      | inl hnew' => exact absurd (hnew'.2 ▸ hold.2) (hfree k)
      | inr hold' => exact h.injective k k' t hold.2 hold'.2
  · intro t
    constructor
    · intro ht
      cases Finset.mem_insert.mp ht with
      | inl heq => exact ⟨key, heq ▸ addTag_map_self⟩
      | inr ht =>
        obtain ⟨k, hk⟩ := (h.used t).mp ht
        refine ⟨k, (addTag_map_of_ne ?_).trans hk⟩
        rintro rfl
        exact nomatch hkey.symm.trans hk
    · rintro ⟨k, hk⟩
      cases addTag_map_eq_some hk with
      | inl hnew => exact Finset.mem_insert.mpr (Or.inl hnew.2)
      | inr hold => exact Finset.mem_insert.mpr (Or.inr ((h.used t).mpr ⟨k, hold.2⟩))

end TagMap

end Rannc
