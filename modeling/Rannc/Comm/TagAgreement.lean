import Rannc.Comm.TagMap
import Rannc.Lib.OptionFold
import Rannc.Lib.Traced

/-!
# Agreement on tags

Between the phases of rank 0 all ranks have the same used tags, and what a rank has for a key is
what rank 0 has for it. So a key that is new to rank 0 is new to all, and all give it the same tag.
-/
namespace Rannc

/-- Whether rank 0 has handed over its tags since it last looked up a route. -/
def synced (history : List TagEvent) : Bool :=
  history.foldl (fun synced e => match e with
    | .common _ => synced
    | .route _ => false
    | .sync => true) true

theorem synced_append (before : List TagEvent) (e : TagEvent) :
    synced (before ++ [e]) = match e with
      | .common _ => synced before
      | .route _ => false
      | .sync => true := by
  unfold synced
  rw [List.foldl_append]
  rfl

/-- Rank 0 hands over its tags before all ranks look up a key. -/
def Phased (history : List TagEvent) : Prop :=
  ∀ before key after, history = before ++ .common key :: after → synced before = true

/-- No key that rank 0 looked up first and alone is looked up by all ranks. -/
def OwnRoutes (history : List TagEvent) : Prop :=
  ∀ before key after, history = before ++ .common key :: after → .route key ∈ before →
    .common key ∈ before

def TagEvent.key : TagEvent → Option TagKey
  | .common key => some key
  | .route key => some key
  | .sync => none

namespace TagWorld

/-- Rank 0 has all tags, what another rank has is the same there, and the keys looked up by all
ranks are everywhere. -/
structure TagsOk (before : List TagEvent) (w : TagWorld) : Prop where
  unique : w.root.Unique
  looked_up : ∀ k t, w.root.map k = some t → TagEvent.common k ∈ before ∨ TagEvent.route k ∈ before
  agree : ∀ m ∈ w.others, ∀ k t, m.map k = some t → w.root.map k = some t
  shared : ∀ k, TagEvent.common k ∈ before →
    ∃ t, w.root.map k = some t ∧ ∀ m ∈ w.others, m.map k = some t
  synced : synced before = true → ∀ m ∈ w.others, m.tags = w.root.tags

/-- The tags that were given out are still those of their keys. -/
def LogOk (st : TagWorld × List Lookup) : Prop :=
  ∀ l ∈ st.2, ∀ t ∈ l.tags, st.1.root.map l.key = some t

variable {hash : TagKey → BitVec 32} {before : List TagEvent} {w : TagWorld} {key : TagKey}

theorem mapM_getTag {maps : List TagMap} {tag : ℤ} {next : TagMap → TagMap}
    (h : ∀ m ∈ maps, m.getTag hash key = some (tag, next m)) :
    (maps.mapM fun m => m.getTag hash key) = some (maps.map fun m => (tag, next m)) := by
  rw [mapM_eq_some_iff, List.map_map]
  exact List.map_congr_left h

theorem common_eq {tag : ℤ} {root : TagMap} {next : TagMap → TagMap}
    (hroot : w.root.getTag hash key = some (tag, root))
    (hothers : ∀ m ∈ w.others, m.getTag hash key = some (tag, next m)) :
    w.common hash key =
      some (List.replicate (w.others.length + 1) tag, ⟨root, w.others.map next⟩) := by
  unfold common
  rw [hroot, mapM_getTag hothers]
  simp [List.replicate_succ, Function.comp_def]

variable (hash) in
theorem common_known (h : TagsOk before w) (hknown : TagEvent.common key ∈ before) :
    ∃ tag, w.common hash key = some (List.replicate (w.others.length + 1) tag, w) ∧
      TagsOk (before ++ [.common key]) w ∧ w.root.map key = some tag := by
  obtain ⟨tag, hroot, hothers⟩ := h.shared key hknown
  refine ⟨tag, ?_, ?_, hroot⟩
  · rw [common_eq (TagMap.getTag_of_some hroot)
      fun m hm => TagMap.getTag_of_some (hothers m hm), List.map_id']
  · refine ⟨h.unique, ?_, h.agree, ?_, ?_⟩
    · intro k t hk
      exact (h.looked_up k t hk).imp (List.mem_append_left _) (List.mem_append_left _)
    · intro k hk
      cases List.mem_append.mp hk with
      | inl hk => exact h.shared k hk
      | inr hk =>
        obtain rfl := TagEvent.common.inj (List.mem_singleton.mp hk)
        exact h.shared k hknown
    · rw [synced_append]
      exact h.synced

variable (hash) in
/-- No rank has the key, and all take the same tag, as all have the same used tags. -/
theorem common_new (h : TagsOk before w) (hcard : (w.root.tags.card : ℤ) < RANNC_TAG_UB)
    (hsynced : Rannc.synced before = true) (hnew : w.root.map key = none) :
    ∃ tag, w.common hash key = some (List.replicate (w.others.length + 1) tag,
        ⟨w.root.addTag key tag, w.others.map fun m => m.addTag key tag⟩) ∧
      TagsOk (before ++ [.common key])
        ⟨w.root.addTag key tag, w.others.map fun m => m.addTag key tag⟩ := by
  obtain ⟨tag, hgen⟩ := TagMap.exists_generate hash key hcard
  have htag := TagMap.generate_notMem hgen
  have hnone : ∀ m ∈ w.others, m.map key = none := by
    intro m hm
    cases hmap : m.map key with
    | none => rfl
    | some t => exact nomatch hnew.symm.trans (h.agree m hm key t hmap)
  refine ⟨tag, common_eq (TagMap.getTag_of_none hnew hgen) ?_, ?_⟩
  · intro m hm
    apply TagMap.getTag_of_none (hnone m hm)
    rw [← hgen]
    unfold TagMap.generate
    rw [h.synced hsynced m hm]
  · refine ⟨h.unique.addTag hnew htag, ?_, ?_, ?_, ?_⟩
    · intro k t hk
      cases TagMap.addTag_map_eq_some hk with
      | inl heq =>
        rw [heq.1]
        exact Or.inl (List.mem_append_right _ (List.mem_singleton_self _))
      | inr hold =>
        exact (h.looked_up k t hold.2).imp (List.mem_append_left _) (List.mem_append_left _)
    · intro m' hm' k t hk
      obtain ⟨m, hm, rfl⟩ := List.mem_map.mp hm'
      cases TagMap.addTag_map_eq_some hk with
      | inl heq =>
        rw [heq.1, heq.2]
        exact TagMap.addTag_map_self
      | inr hold => exact (TagMap.addTag_map_of_ne hold.1).trans (h.agree m hm k t hold.2)
    · intro k hk
      by_cases heq : k = key
      · refine ⟨tag, heq ▸ TagMap.addTag_map_self, ?_⟩
        intro m' hm'
        obtain ⟨m, _, rfl⟩ := List.mem_map.mp hm'
        exact heq ▸ TagMap.addTag_map_self
      · have hold : TagEvent.common k ∈ before := by
          cases List.mem_append.mp hk with
          | inl hk => exact hk
          | inr hk => exact absurd (TagEvent.common.inj (List.mem_singleton.mp hk)) heq
        obtain ⟨t, hroot, hothers⟩ := h.shared k hold
        refine ⟨t, (TagMap.addTag_map_of_ne heq).trans hroot, ?_⟩
        intro m' hm'
        obtain ⟨m, hm, rfl⟩ := List.mem_map.mp hm'
        exact (TagMap.addTag_map_of_ne heq).trans (hothers m hm)
    · intro _ m' hm'
      obtain ⟨m, hm, rfl⟩ := List.mem_map.mp hm'
      exact congrArg (insert tag) (h.synced hsynced m hm)

variable (hash) in
theorem route_known {tag : ℤ} (h : TagsOk before w) (hknown : w.root.map key = some tag) :
    w.route hash key = some (tag, w) ∧ TagsOk (before ++ [.route key]) w := by
  constructor
  · unfold route
    rw [TagMap.getTag_of_some hknown]
    rfl
  · constructor
    · exact h.unique
    · intro k t hk
      exact (h.looked_up k t hk).imp (List.mem_append_left _) (List.mem_append_left _)
    · exact h.agree
    · intro k hk
      cases List.mem_append.mp hk with
      | inl hk => exact h.shared k hk
      | inr hk => exact nomatch List.mem_singleton.mp hk
    · intro hsynced
      rw [synced_append] at hsynced
      cases hsynced

variable (hash) in
/-- The other ranks do not see what rank 0 takes for a route. -/
theorem route_new (h : TagsOk before w) (hcard : (w.root.tags.card : ℤ) < RANNC_TAG_UB)
    (hnew : w.root.map key = none) :
    ∃ tag, w.route hash key = some (tag, ⟨w.root.addTag key tag, w.others⟩) ∧
      TagsOk (before ++ [.route key]) ⟨w.root.addTag key tag, w.others⟩ := by
  obtain ⟨tag, hgen⟩ := TagMap.exists_generate hash key hcard
  have hold : ∀ k t, w.root.map k = some t → (w.root.addTag key tag).map k = some t :=
    fun _ _ hk => TagMap.addTag_map_kept hnew hk
  refine ⟨tag, ?_, ?_⟩
  · unfold route
    rw [TagMap.getTag_of_none hnew hgen]
    rfl
  · constructor
    · exact h.unique.addTag hnew (TagMap.generate_notMem hgen)
    · intro k t hk
      cases TagMap.addTag_map_eq_some hk with
      | inl heq =>
        rw [heq.1]
        exact Or.inr (List.mem_append_right _ (List.mem_singleton_self _))
      | inr hk =>
        exact (h.looked_up k t hk.2).imp (List.mem_append_left _) (List.mem_append_left _)
    · intro m hm k t hk
      exact hold k t (h.agree m hm k t hk)
    · intro k hk
      cases List.mem_append.mp hk with
      | inl hk =>
        obtain ⟨t, hroot, hothers⟩ := h.shared k hk
        exact ⟨t, hold k t hroot, hothers⟩
      | inr hk => exact nomatch List.mem_singleton.mp hk
    · intro hsynced
      rw [synced_append] at hsynced
      cases hsynced

theorem sync_ok (h : TagsOk before w) : TagsOk (before ++ [.sync]) w.sync := by
  constructor
  · exact h.unique
  · intro k t hk
    exact (h.looked_up k t hk).imp (List.mem_append_left _) (List.mem_append_left _)
  · intro m' hm' k t hk
    obtain ⟨m, hm, rfl⟩ := List.mem_map.mp hm'
    exact h.agree m hm k t hk
  · intro k hk
    cases List.mem_append.mp hk with
    | inl hk =>
      obtain ⟨t, hroot, hothers⟩ := h.shared k hk
      refine ⟨t, hroot, ?_⟩
      intro m' hm'
      obtain ⟨m, hm, rfl⟩ := List.mem_map.mp hm'
      exact hothers m hm
    | inr hk => exact nomatch List.mem_singleton.mp hk
  · intro _ m' hm'
    obtain ⟨m, _, rfl⟩ := List.mem_map.mp hm'
    rfl

theorem card_tags_le (h : TagsOk before w) :
    w.root.tags.card ≤ (before.filterMap TagEvent.key).toFinset.card := by
  have hsub : w.root.tags ⊆
      (before.filterMap TagEvent.key).toFinset.image fun k => (w.root.map k).getD 0 := by
    intro t ht
    obtain ⟨k, hk⟩ := (h.unique.used t).mp ht
    refine Finset.mem_image.mpr ⟨k, List.mem_toFinset.mpr (List.mem_filterMap.mpr ?_), ?_⟩
    · cases h.looked_up k t hk with
      | inl hmem => exact ⟨_, hmem, rfl⟩
      | inr hmem => exact ⟨_, hmem, rfl⟩
    · rw [hk, Option.getD_some]
  exact (Finset.card_le_card hsub).trans Finset.card_image_le

theorem root_map_none (h : TagsOk before w) (hcommon : TagEvent.common key ∉ before)
    (hroute : TagEvent.route key ∉ before) : w.root.map key = none := by
  cases hmap : w.root.map key with
  | none => rfl
  | some t =>
    cases h.looked_up key t hmap with
    | inl hmem => exact absurd hmem hcommon
    | inr hmem => exact absurd hmem hroute

/-- What the tags of the ranks and the log are like after a part of the history. -/
structure TagsInv (size : ℕ) (before : List TagEvent) (st : TagWorld × List Lookup) : Prop where
  tags : TagsOk before st.1
  log : LogOk st
  ranks : st.1.others.length + 1 = size

/-- What a step logs: the key and the number of ranks that get a tag for it. -/
def logged (size : ℕ) : TagEvent → List (TagKey × ℕ)
  | .common key => [(key, size)]
  | .route key => [(key, 1)]
  | .sync => []

def lookups (st : TagWorld × List Lookup) : List (TagKey × ℕ) :=
  st.2.map fun l => (l.key, l.tags.length)

variable {size : ℕ} {st : TagWorld × List Lookup}

theorem logOk_append {w' : TagWorld} {tags : List ℤ} (h : LogOk st)
    (hkept : ∀ k t, st.1.root.map k = some t → w'.root.map k = some t)
    (hnew : ∀ t ∈ tags, w'.root.map key = some t) : LogOk (w', st.2 ++ [⟨key, tags⟩]) := by
  intro l hl t ht
  cases List.mem_append.mp hl with
  | inl hl => exact hkept _ _ (h l hl t ht)
  | inr hl =>
    obtain rfl := List.mem_singleton.mp hl
    exact hnew t ht

theorem step_common (hsynced : synced before = true)
    (hown : TagEvent.route key ∈ before → TagEvent.common key ∈ before)
    (hcard : ((before.filterMap TagEvent.key).toFinset.card : ℤ) < RANNC_TAG_UB) :
    Traced.Runs lookups (TagsInv size before) (TagsInv size (before ++ [.common key]))
      (fun st => step hash st (.common key)) [(key, size)] := by
  intro st hst
  have hlog : ∀ {w' : TagWorld} {tag : ℤ},
      lookups (w', st.2 ++ [⟨key, List.replicate (st.1.others.length + 1) tag⟩]) =
        lookups st ++ [(key, size)] := by
    intro w' tag
    simp [lookups, hst.ranks]
  by_cases hknown : TagEvent.common key ∈ before
  · obtain ⟨tag, hstep, hok, htag⟩ := common_known hash hst.tags hknown
    refine ⟨(st.1, st.2 ++ [⟨key, List.replicate (st.1.others.length + 1) tag⟩]), ?_, ?_, hlog⟩
    · dsimp only [step]
      rw [hstep]
      rfl
    · refine ⟨hok, logOk_append hst.log (fun _ _ h => h) ?_, hst.ranks⟩
      intro t ht
      rw [List.eq_of_mem_replicate ht]
      exact htag
  · have hnew := root_map_none hst.tags hknown fun hroute => hknown (hown hroute)
    have hfree : (st.1.root.tags.card : ℤ) < RANNC_TAG_UB := by
      have := card_tags_le hst.tags
      omega
    obtain ⟨tag, hstep, hok⟩ := common_new hash hst.tags hfree hsynced hnew
    refine ⟨(⟨st.1.root.addTag key tag, st.1.others.map fun m => m.addTag key tag⟩,
      st.2 ++ [⟨key, List.replicate (st.1.others.length + 1) tag⟩]), ?_, ?_, hlog⟩
    · dsimp only [step]
      rw [hstep]
      rfl
    · refine ⟨hok, logOk_append hst.log (fun _ _ h => TagMap.addTag_map_kept hnew h) ?_, ?_⟩
      · intro t ht
        rw [List.eq_of_mem_replicate ht]
        exact TagMap.addTag_map_self
      · rw [List.length_map]
        exact hst.ranks

theorem step_route
    (hcard : ((before.filterMap TagEvent.key).toFinset.card : ℤ) < RANNC_TAG_UB) :
    Traced.Runs lookups (TagsInv size before) (TagsInv size (before ++ [.route key]))
      (fun st => step hash st (.route key)) [(key, 1)] := by
  intro st hst
  have hlog : ∀ {w' : TagWorld} {tag : ℤ},
      lookups (w', st.2 ++ [⟨key, [tag]⟩]) = lookups st ++ [(key, 1)] := by
    intro w' tag
    simp [lookups]
  cases hmap : st.1.root.map key with
  | some tag =>
    obtain ⟨hstep, hok⟩ := route_known hash hst.tags hmap
    refine ⟨(st.1, st.2 ++ [⟨key, [tag]⟩]), ?_, ?_, hlog⟩
    · dsimp only [step]
      rw [hstep]
      rfl
    · refine ⟨hok, logOk_append hst.log (fun _ _ h => h) ?_, hst.ranks⟩
      intro t ht
      rw [List.mem_singleton.mp ht]
      exact hmap
  | none =>
    have hfree : (st.1.root.tags.card : ℤ) < RANNC_TAG_UB := by
      have := card_tags_le hst.tags
      omega
    obtain ⟨tag, hstep, hok⟩ := route_new hash hst.tags hfree hmap
    refine ⟨(⟨st.1.root.addTag key tag, st.1.others⟩, st.2 ++ [⟨key, [tag]⟩]), ?_, ?_, hlog⟩
    · dsimp only [step]
      rw [hstep]
      rfl
    · refine ⟨hok, logOk_append hst.log (fun _ _ h => TagMap.addTag_map_kept hmap h) ?_, hst.ranks⟩
      intro t ht
      rw [List.mem_singleton.mp ht]
      exact TagMap.addTag_map_self

theorem step_sync :
    Traced.Runs lookups (TagsInv size before) (TagsInv size (before ++ [.sync]))
      (fun st => step hash st .sync) [] := by
  intro st hst
  refine ⟨(st.1.sync, st.2), rfl, ⟨sync_ok hst.tags, hst.log, ?_⟩, (List.append_nil _).symm⟩
  dsimp only [sync]
  rw [List.length_map]
  exact hst.ranks

theorem tagsInv_init (hsize : 0 < size) : TagsInv size [] (init size, []) := by
  have hempty : ∀ m ∈ (init size).others, m = TagMap.empty :=
    fun m hm => List.eq_of_mem_replicate hm
  refine ⟨⟨⟨nofun, ?_⟩, nofun, ?_, nofun, ?_⟩, nofun, ?_⟩
  · intro t
    exact ⟨fun ht => absurd ht (Finset.notMem_empty t), fun ht => nomatch ht.choose_spec⟩
  · intro m hm k t hk
    rw [hempty m hm] at hk
    cases hk
  · intro _ m hm
    rw [hempty m hm]
    rfl
  · dsimp only [init]
    rw [List.length_replicate]
    omega

variable (hash) in
theorem run_runs {history : List TagEvent} (hphased : Phased history) (hown : OwnRoutes history)
    (hcard : ((history.filterMap TagEvent.key).toFinset.card : ℤ) < RANNC_TAG_UB) :
    Traced.Runs lookups (TagsInv size []) (TagsInv size history)
      (fun st => history.foldlM (step hash) st) (history.flatMap (logged size)) := by
  apply Traced.Runs.foldlM
  intro before e after hhist
  have hbefore : ((before.filterMap TagEvent.key).toFinset.card : ℤ) < RANNC_TAG_UB := by
    have hsub : (before.filterMap TagEvent.key).toFinset ⊆
        (history.filterMap TagEvent.key).toFinset := by
      intro k hk
      rw [hhist, List.filterMap_append]
      exact List.mem_toFinset.mpr (List.mem_append_left _ (List.mem_toFinset.mp hk))
    have := Finset.card_le_card hsub
    omega
  cases e with
  | common key =>
    exact step_common (hphased before key after hhist) (hown before key after hhist) hbefore
  | route key => exact step_route hbefore
  | sync => exact step_sync

/-- All ranks get the same tag for a key, and no two keys that are ever looked up have the same tag,
if the keys that rank 0 looks up first and alone stay its own. -/
theorem run_tags (hash : TagKey → BitVec 32) {size : ℕ} (hsize : 0 < size)
    {history : List TagEvent} (hphased : Phased history) (hown : OwnRoutes history)
    (hcard : ((history.filterMap TagEvent.key).toFinset.card : ℤ) < RANNC_TAG_UB) :
    ∃ w log, run hash size history = some (w, log) ∧
      log.map (fun l => (l.key, l.tags.length)) = history.flatMap (logged size) ∧
      ∀ l ∈ log, ∀ l' ∈ log, ∀ t ∈ l.tags, ∀ t' ∈ l'.tags, t = t' ↔ l.key = l'.key := by
  obtain ⟨⟨w, log⟩, hrun, hinv, hlog⟩ :=
    run_runs hash hphased hown hcard _ (tagsInv_init hsize)
  refine ⟨w, log, hrun, hlog, ?_⟩
  intro l hl l' hl' t ht t' ht'
  have hroot : w.root.map l.key = some t := hinv.log l hl t ht
  have hroot' : w.root.map l'.key = some t' := hinv.log l' hl' t' ht'
  constructor
  · intro heq
    exact hinv.tags.unique.injective _ _ t hroot (heq ▸ hroot')
  · intro heq
    rw [heq, hroot'] at hroot
    exact (Option.some.inj hroot).symm

theorem run_tags_three :
    let history : List TagEvent :=
      [.common (.value "x"), .route (.value "route"), .sync, .common (.ranks {0, 1})]
    ∃ w log, run (fun _ => 7) 3 history = some (w, log) ∧
      log.map (fun l => (l.key, l.tags.length)) = history.flatMap (logged 3) ∧
      ∀ l ∈ log, ∀ l' ∈ log, ∀ t ∈ l.tags, ∀ t' ∈ l'.tags, t = t' ↔ l.key = l'.key := by
  intro history
  apply run_tags (fun _ => 7) (by decide)
  · intro before key after h
    match before, h with
    | [], _ => rfl
    | [_], h => simp [history] at h
    | [_, _], h => simp [history] at h
    | [_, _, _], h =>
      obtain ⟨rfl, rfl, rfl, -⟩ := by simpa [history] using h
      rfl
    | _ :: _ :: _ :: _ :: _, h => simp [history] at h
  · intro before key after h hroute
    match before, h with
    | [_], h => simp [history] at h
    | [_, _], h => simp [history] at h
    | [_, _, _], h =>
      obtain ⟨rfl, rfl, rfl, rfl, -⟩ := by simpa [history] using h
      simp at hroute
    | _ :: _ :: _ :: _ :: _, h => simp [history] at h
  · decide

/-- A key that rank 0 looked up first is new to the others, where its tag is already used. -/
theorem not_run_tags : ¬∀ (hash : TagKey → BitVec 32) (size : ℕ) (history : List TagEvent),
    0 < size → Phased history →
    ((history.filterMap TagEvent.key).toFinset.card : ℤ) < RANNC_TAG_UB →
    ∃ w log, run hash size history = some (w, log) ∧
      log.map (fun l => (l.key, l.tags.length)) = history.flatMap (logged size) ∧
      ∀ l ∈ log, ∀ l' ∈ log, ∀ t ∈ l.tags, ∀ t' ∈ l'.tags, t = t' ↔ l.key = l'.key := by
  intro h
  let history : List TagEvent := [.route (.value "x"), .sync, .common (.value "x")]
  have hphased : Phased history := by
    intro before key after hhist
    match before, hhist with
    | [], hhist => simp [history] at hhist
    | [_], hhist => simp [history] at hhist
    | [_, _], hhist =>
      obtain ⟨rfl, rfl, -⟩ := by simpa [history] using hhist
      rfl
    | _ :: _ :: _ :: _, hhist => simp [history] at hhist
  obtain ⟨w, log, hrun, -, htags⟩ := h (fun _ => 7) 2 history (by decide) hphased (by decide)
  have hlog : (run (fun _ => 7) 2 history).map (fun st => st.2.map Lookup.tags) =
      some [[7], [7, 8]] := by decide
  rw [hrun] at hlog
  have hmap : log.map Lookup.tags = [[7], [7, 8]] := Option.some.inj hlog
  obtain ⟨l, hl, htags_eq⟩ : ∃ l ∈ log, l.tags = [7, 8] :=
    List.mem_map.mp (hmap ▸ by decide)
  have heq := (htags l hl l hl 7 (by rw [htags_eq]; decide) 8 (by rw [htags_eq]; decide)).mpr rfl
  exact absurd heq (by decide)

end TagWorld

end Rannc
