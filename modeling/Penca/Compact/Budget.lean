import Penca.Compact.Waves

/-!
# `Compact.Budget` — the size of merged files

A wave folds segments while the sum of their recorded sizes stays within `max_segment_bytes`. A Persist records a
segment's footprint; a merge records for each input its share of the merged file by row count, rounded down. The
recorded sizes of the active file can so add up to less than the file, and the next merged file can pass the cap.

`mergedFilesFit_run`: every merged file fits if, at each call, the shares of every merged file add up to what its
rows take, the window shows the active file whole, and the recorded sizes fit an `i64`. A wave then takes whole files
(`inputs_whole`), so its recorded total covers its footprint file by file (`sum_le_of_groups`).
-/

namespace Penca.Compact

variable {n : Nat} {R V W : Type}

/-- Every merged file written so far is within the cap. -/
def Catalog.MergedFilesFit (cfg : CompactConfig n R V W) (c : Catalog n R V W) : Prop :=
  ∀ file < c.store.mergedFiles,
    cfg.batchInMemoryBytes (c.store.objects (.merged file)) ≤ cfg.maxSegmentBytes

/-- The segments a Persist writes are within the cap. -/
def PersistsFit (cfg : CompactConfig n R V W) (_ : Catalog n R V W) : ScopeOp R V → Prop
  | .persist target upserts deletes _ _ _ =>
      ∀ w ∈ persistWrites cfg.toPersistConfig target upserts deletes,
        cfg.batchInMemoryBytes w.2 ≤ cfg.maxSegmentBytes
  | .compact _ _ _ _ => True

/-- What the rows of a segment take. -/
def Catalog.footprint (cfg : CompactConfig n R V W) (c : Catalog n R V W) (seg : PersistSegment) : Int :=
  cfg.batchInMemoryBytes (c.store.segmentRows seg)

def Catalog.recordedSize (c : Catalog n R V W) (seg : PersistSegment) : Int := (c.columns seg.uuid).sizeBytes

/-- The unsealed rows of a scope that lie in one file. -/
def Catalog.rowsOf (c : Catalog n R V W) (logKind : LogKind) (uri : ObjectUri) : List PersistSegment :=
  (c.unsealedSegments logKind).filter (fun seg => seg.objectUri = uri)

/-- The shares recorded for the rows of a merged file add up to what the rows take: rounding has lost nothing. -/
def Catalog.SharesAddUp (cfg : CompactConfig n R V W) (c : Catalog n R V W) (logKind : LogKind) : Prop :=
  ∀ file < c.store.mergedFiles,
    ((c.rowsOf logKind (.merged file)).map (c.footprint cfg)).sum ≤
      ((c.rowsOf logKind (.merged file)).map c.recordedSize).sum

/-- The recorded sizes of a scope are not negative and fit an `i64` together. -/
def Catalog.SizesFit (c : Catalog n R V W) (logKind : LogKind) : Prop :=
  (∀ seg ∈ c.unsealedSegments logKind, 0 ≤ c.recordedSize seg) ∧
    ((c.unsealedSegments logKind).map c.recordedSize).sum ≤ i64Max

/-- What a call finds: shares that add up, the active file in its window, sums within `i64`. -/
def WithinBudget (cfg : CompactConfig n R V W) (c : Catalog n R V W) : ScopeOp R V → Prop
  | .persist _ _ _ _ _ _ => True
  | .compact order logKind minPersistedAt maxPersistedAt =>
      c.SharesAddUp cfg logKind ∧
        ShowsActive logKind c (.compact order logKind minPersistedAt maxPersistedAt : ScopeOp R V) ∧ c.SizesFit logKind

instance (cfg : CompactConfig n R V W) (c : Catalog n R V W) : Decidable (c.MergedFilesFit cfg) :=
  inferInstanceAs (Decidable (∀ file < _, _))

instance (cfg : CompactConfig n R V W) (c : Catalog n R V W) : ∀ op, Decidable (PersistsFit cfg c op)
  | .persist _ _ _ _ _ _ => inferInstanceAs (Decidable (∀ w ∈ _, _))
  | .compact _ _ _ _     => isTrue trivial

instance (cfg : CompactConfig n R V W) (c : Catalog n R V W) (logKind : LogKind) :
    Decidable (c.SharesAddUp cfg logKind) :=
  inferInstanceAs (Decidable (∀ file < _, _))

instance (c : Catalog n R V W) (logKind : LogKind) : Decidable (c.SizesFit logKind) :=
  inferInstanceAs (Decidable ((∀ seg ∈ _, _) ∧ _))

instance (cfg : CompactConfig n R V W) (c : Catalog n R V W) : ∀ op, Decidable (WithinBudget cfg c op)
  | .persist _ _ _ _ _ _ => isTrue trivial
  | .compact _ _ _ _     => inferInstanceAs (Decidable (_ ∧ _ ∧ _))

variable {c c' : Catalog n R V W} {cfg : CompactConfig n R V W} {logKind : LogKind} {order : List ObjectUri}
  {minPersistedAt maxPersistedAt : Option Int} {wave : Wave}

/-! ## What a wave takes -/

/-- Whole groups whose sums are ordered add up in that order. -/
theorem sum_le_of_groups {ι κ : Type} [DecidableEq ι] [DecidableEq κ] (all : Finset ι) {part : Finset ι}
    (key : ι → κ) {f g : ι → Int} (hsub : part ⊆ all) (hwhole : ∀ a ∈ part, ∀ b ∈ all, key b = key a → b ∈ part)
    (hgroup : ∀ k, ∑ a ∈ all with key a = k, f a ≤ ∑ a ∈ all with key a = k, g a) :
    ∑ a ∈ part, f a ≤ ∑ a ∈ part, g a := by
  have hfiber : ∀ k ∈ part.image key, (part.filter (fun a => key a = k)) = all.filter (fun a => key a = k) := by
    intro k hk
    obtain ⟨a, ha, rfl⟩ := Finset.mem_image.mp hk
    ext b
    simp only [Finset.mem_filter]
    exact ⟨fun h => ⟨hsub h.1, h.2⟩, fun h => ⟨hwhole a ha b h.1 h.2, h.2⟩⟩
  rw [← Finset.sum_fiberwise_of_maps_to (fun a ha => Finset.mem_image_of_mem key ha) f,
    ← Finset.sum_fiberwise_of_maps_to (fun a ha => Finset.mem_image_of_mem key ha) g]
  refine Finset.sum_le_sum ?_
  intro k hk
  rw [hfiber k hk]
  exact hgroup k

/-- A wave that sees the active file takes whole files. -/
theorem Catalog.inputs_whole (hok : c.Ok) (hactive : c.ActiveSealed logKind)
    (hshown : ShowsActive logKind c (.compact order logKind minPersistedAt maxPersistedAt : ScopeOp R V))
    (hwave : c.wave cfg order logKind minPersistedAt maxPersistedAt = some wave) {seg seg' : PersistSegment}
    (hseg : seg ∈ wave.inputs) (hseg' : seg' ∈ c.unsealedSegments logKind) (huri : seg'.objectUri = seg.objectUri) :
    seg' ∈ wave.inputs := by
  have htakes := wave_takes hok hwave
  have hmem := htakes.mem seg (List.mem_append_left _ hseg)
  by_cases hcount : 1 < (c.scopeUris logKind).count seg.objectUri
  · rcases c.wave_whole hactive hshown hwave hcount with hall | hall
    · exact hall seg' hseg' huri
    · exact absurd (List.mem_map_of_mem (hall seg hmem rfl)) (htakes.not_sealed hseg)
  · -- The row is alone in its file.
    by_contra hnot
    refine hcount (one_lt_count_iff.mpr ?_)
    obtain ⟨i, hi⟩ := List.getElem?_of_mem hmem
    obtain ⟨j, hj⟩ := List.getElem?_of_mem hseg'
    have hne : i ≠ j := by
      rintro rfl
      rw [hi] at hj
      exact hnot (Option.some.inj hj ▸ hseg)
    rcases Nat.lt_or_gt_of_ne hne with hlt | hlt
    · exact ⟨i, j, hlt, by simp [scopeUris, hi], by simp [scopeUris, hj, huri]⟩
    · exact ⟨j, i, hlt, by simp [scopeUris, hj, huri], by simp [scopeUris, hi]⟩

/-- The recorded sizes of the inputs are within the cap. -/
theorem Catalog.wave_fits (hsizes : c.SizesFit logKind)
    (hwave : c.wave cfg order logKind minPersistedAt maxPersistedAt = some wave) (hinputs : wave.inputs ≠ []) :
    (wave.inputs.map c.recordedSize).sum ≤ cfg.maxSegmentBytes := by
  obtain ⟨plan, hplan, rfl⟩ := Option.map_eq_some_iff.mp hwave
  have hmem : ∀ seg ∈ c.enumerateUnsealed logKind minPersistedAt maxPersistedAt,
      seg ∈ c.unsealedSegments logKind := fun seg hseg => mem_enumerateUnsealed hseg
  have hnonneg : ∀ x ∈ (c.unsealedSegments logKind).map c.recordedSize, (0 : Int) ≤ x := by
    rintro x hx
    obtain ⟨seg, hseg, rfl⟩ := List.mem_map.mp hx
    exact hsizes.1 seg hseg
  have hrows : ∀ row ∈ (c.enumerateUnsealed logKind minPersistedAt maxPersistedAt).map
      (fun seg => (seg.objectUri, (c.columns seg.uuid).sizeBytes)), 0 ≤ row.2 ∧ row.2 ≤ i64Max := by
    rintro row hrow
    obtain ⟨seg, hseg, rfl⟩ := List.mem_map.mp hrow
    have hsize : c.recordedSize seg ∈ (c.unsealedSegments logKind).map c.recordedSize :=
      List.mem_map_of_mem (hmem seg hseg)
    exact ⟨hnonneg _ hsize, (List.single_le_sum hnonneg _ hsize).trans hsizes.2⟩
  have hsum : (((c.enumerateUnsealed logKind minPersistedAt maxPersistedAt).map
      (fun seg => (seg.objectUri, (c.columns seg.uuid).sizeBytes))).map Prod.snd).sum ≤ i64Max := by
    have hperm : (c.enumerateUnsealed logKind minPersistedAt maxPersistedAt).Perm ((c.unsealedSegments logKind).filter
        (fun seg => inWindow minPersistedAt maxPersistedAt (c.columns seg.uuid).commitMicros)) :=
      List.perm_insertionSort _ _
    refine le_trans ?_ hsizes.2
    rw [List.map_map, (hperm.map _).sum_eq]
    exact (List.filter_sublist.map c.recordedSize).sum_le_sum hnonneg
  have hfits := planWave_fits hrows (waveSumsCompare_of_sum_le hrows hsum) hplan
  have hrange : ∀ i ∈ plan.inputIndices, i < (c.enumerateUnsealed logKind minPersistedAt maxPersistedAt).length := by
    intro i hi
    simpa using (planWave_picks hplan).inRange i (List.mem_append_left _ hi)
  rcases hfits with hnil | hle
  · exact absurd (by rw [hnil]; rfl) hinputs
  · rw [List.map_map] at hle
    rw [map_pick _ _ hrange 0]
    exact hle

/-! ## What is recorded -/

/-- What holds along runs: a segment that was never merged records what its rows take. -/
structure BudgetInv (cfg : CompactConfig n R V W) (c : Catalog n R V W) : Prop where
  ok : c.Ok
  active : ∀ logKind, c.ActiveSealed logKind
  recorded : ∀ seg ∈ c.store.persistSegments, seg.objectUri = .segment seg.uuid → c.recordedSize seg = c.footprint cfg seg
  fit : c.MergedFilesFit cfg

/-- The recorded sizes of a wave's inputs cover what their rows take. -/
theorem BudgetInv.footprint_le (hinv : BudgetInv cfg c) (hshares : c.SharesAddUp cfg logKind)
    (hshown : ShowsActive logKind c (.compact order logKind minPersistedAt maxPersistedAt : ScopeOp R V))
    (hwave : c.wave cfg order logKind minPersistedAt maxPersistedAt = some wave) :
    (wave.inputs.map (c.footprint cfg)).sum ≤ (wave.inputs.map c.recordedSize).sum := by
  have htakes := Catalog.wave_takes hinv.ok hwave
  have hinputs : wave.inputs.Nodup := by
    have hnodup := htakes.nodup
    rw [List.map_append] at hnodup
    exact hnodup.of_append_left.of_map
  have hunsealed : (c.unsealedSegments logKind).Nodup :=
    (hinv.ok.uuids.sublist (List.filter_sublist.map PersistSegment.uuid)).of_map
  rw [← List.sum_toFinset _ hinputs, ← List.sum_toFinset _ hinputs]
  refine sum_le_of_groups (c.unsealedSegments logKind).toFinset PersistSegment.objectUri ?_ ?_ ?_
  · intro seg hseg
    exact List.mem_toFinset.mpr (htakes.mem seg (List.mem_append_left _ (List.mem_toFinset.mp hseg)))
  · intro seg hseg seg' hseg' huri
    exact List.mem_toFinset.mpr (c.inputs_whole hinv.ok (hinv.active logKind) hshown hwave
      (List.mem_toFinset.mp hseg) (List.mem_toFinset.mp hseg') huri)
  · intro uri
    have hrows : (c.unsealedSegments logKind).toFinset.filter (fun seg => seg.objectUri = uri) =
        (c.rowsOf logKind uri).toFinset := by
      ext seg
      simp [Catalog.rowsOf]
    have hnodup : (c.rowsOf logKind uri).Nodup := hunsealed.filter _
    rw [hrows, List.sum_toFinset _ hnodup, List.sum_toFinset _ hnodup]
    have hlocated : ∀ seg ∈ c.rowsOf logKind uri, seg.objectUri = uri ∧ seg ∈ c.store.persistSegments := by
      intro seg hseg
      obtain ⟨hmem, huri⟩ := List.mem_filter.mp hseg
      exact ⟨of_decide_eq_true huri, ((c.mem_unsealedSegments hinv.ok).mp hmem).1⟩
    cases uri with
    | merged file =>
        by_cases hfile : file < c.store.mergedFiles
        · exact hshares file hfile
        · have hnone : c.rowsOf logKind (.merged file) = [] := by
            refine List.eq_nil_iff_forall_not_mem.mpr (fun seg hseg => ?_)
            obtain ⟨huri, hmem⟩ := hlocated seg hseg
            rcases hinv.ok.segments.located seg hmem with hl | ⟨k, hk, hl⟩
            · cases hl.symm.trans huri
            · cases hl.symm.trans huri
              exact hfile hk
          rw [hnone]
          exact le_refl _
    | segment uuid =>
        refine le_of_eq (congrArg List.sum (List.map_congr_left (fun seg hseg => ?_)))
        obtain ⟨huri, hmem⟩ := hlocated seg hseg
        rcases hinv.ok.segments.located seg hmem with hl | ⟨k, -, hl⟩
        · exact (hinv.recorded seg hmem hl).symm
        · cases hl.symm.trans huri

/-! ## One step -/

theorem Store.objects_writeSegments (s : Store R V) (ws : List (SegmentUuid × List (LogEntry R V))) (file : Nat) :
    (s.writeSegments ws).objects (.merged file) = s.objects (.merged file) ∧
      (s.writeSegments ws).mergedFiles = s.mergedFiles := by
  induction ws generalizing s with
  | nil => exact ⟨rfl, rfl⟩
  | cons w ws ih =>
      obtain ⟨hobject, hfiles⟩ := ih (s.writeSegment w.1 w.2)
      refine ⟨hobject.trans ?_, hfiles⟩
      simp [Store.writeSegment, Store.commitTablePersistSegment, Store.putObject, Store.insertTablePersistSegment]

variable [Min W] [Max W]

theorem Catalog.MergedFilesFit.persist (hfit : c.MergedFilesFit cfg) (target : Int)
    (upserts deletes : List (LogEntry R V)) (persistedAt seq now : Int) :
    (c.persist cfg target upserts deletes persistedAt seq now).MergedFilesFit cfg := by
  obtain ⟨-, hobjects, hfiles⟩ :=
    Store.insertParents_segments c.store (persistParents target upserts deletes) persistedAt seq
  have hstore : (c.persist cfg target upserts deletes persistedAt seq now).store =
      ((c.store.insertParents (persistParents target upserts deletes) persistedAt seq).writeSegments
        (persistWrites cfg.toPersistConfig target upserts deletes)).phase2ParentFlip
          (persistParents target upserts deletes) := Store.writePersist_eq _ _ _ _ _ _ _
  intro file hfile
  obtain ⟨hobject, hcount⟩ := Store.objects_writeSegments
    (c.store.insertParents (persistParents target upserts deletes) persistedAt seq)
    (persistWrites cfg.toPersistConfig target upserts deletes) file
  rw [hstore] at hfile ⊢
  change file < Store.mergedFiles (Store.writeSegments _ _) at hfile
  change cfg.batchInMemoryBytes (Store.objects (Store.writeSegments _ _) _) ≤ _
  rw [hcount, hfiles] at hfile
  rw [hobject, hobjects]
  exact hfit file hfile

section Persist

variable {target : Int} {upserts deletes : List (LogEntry R V)} {persistedAt seq now : Int}
  (hfresh : ∀ w ∈ persistWrites cfg.toPersistConfig target upserts deletes, c.store.hasSegment w.1 = false)
include hfresh

/-- Every segment after a Persist is an old one with its rows, or one of its writes. -/
theorem Catalog.segmentRows_persist (hok : c.Ok) {seg : PersistSegment}
    (hseg : seg ∈ (c.persist cfg target upserts deletes persistedAt seq now).store.persistSegments) :
    (∃ old ∈ c.store.persistSegments, old.uuid = seg.uuid ∧
      (c.persist cfg target upserts deletes persistedAt seq now).store.segmentRows seg = c.store.segmentRows old) ∨
    ∃ w ∈ persistWrites cfg.toPersistConfig target upserts deletes, w.1 = seg.uuid ∧
      (c.persist cfg target upserts deletes persistedAt seq now).store.segmentRows seg = w.2 := by
  have hnc : ∀ w ∈ persistWrites cfg.toPersistConfig target upserts deletes, c.store.NoClobberAt w :=
    fun w hw old hold hu => absurd hu (Store.hasSegment_eq_false_iff.mp (hfresh w hw) old hold)
  have hview : (c.persist cfg target upserts deletes persistedAt seq now).store.view seg ∈
      (c.store.writePersist cfg.toPersistConfig target upserts deletes persistedAt seq).views := List.mem_map_of_mem hseg
  rw [(Store.writePersist_views hok.segments hnc).2] at hview
  rcases List.mem_append.mp hview with hview | hview
  · obtain ⟨old, hold, heq⟩ := List.mem_map.mp hview
    exact .inl ⟨old, hold, congrArg SegmentView.uuid heq, (congrArg SegmentView.rows heq).symm⟩
  · obtain ⟨w, hw, heq⟩ := List.mem_map.mp hview
    exact .inr ⟨w, (List.mem_filter.mp hw).1, congrArg SegmentView.uuid heq, (congrArg SegmentView.rows heq).symm⟩

theorem BudgetInv.persist (hinv : BudgetInv cfg c) :
    BudgetInv cfg (c.persist cfg target upserts deletes persistedAt seq now) where
  ok := hinv.ok.persist hfresh
  active := fun logKind => (hinv.active logKind).persist hinv.ok persistedAt seq now hfresh
  fit := hinv.fit.persist target upserts deletes persistedAt seq now
  recorded := by
    intro seg hseg huri
    rw [Catalog.recordedSize, Catalog.footprint]
    rcases Catalog.segmentRows_persist hfresh hinv.ok hseg with ⟨old, hold, hu, hrows⟩ | ⟨w, hw, hu, hrows⟩
    · rw [hrows, ← hu, Catalog.columns_persist_of_mem hfresh hold]
      -- The row is the old one: uuids are a primary key.
      have hmem := hseg
      rw [Catalog.persistSegments_persist hfresh] at hmem
      rcases List.mem_append.mp hmem with hmem | hmem
      · obtain rfl := hinv.ok.uuids.eq_of_uuid hold hmem hu
        exact hinv.recorded old hold huri
      · obtain ⟨w, hw, rfl⟩ := List.mem_map.mp hmem
        exact absurd hu (Store.hasSegment_eq_false_iff.mp (hfresh w hw) old hold)
    · rw [hrows, ← hu, Catalog.columns_persist_of_write hw]

end Persist

omit [Min W] [Max W] in
theorem BudgetInv.sealSegments (hinv : BudgetInv cfg c) (uuids : List SegmentUuid)
    (hactive : ∀ logKind, (c.sealSegments uuids).ActiveSealed logKind) : BudgetInv cfg (c.sealSegments uuids) := by
  refine ⟨hinv.ok.sealSegments uuids, hactive, ?_, hinv.fit⟩
  intro seg hseg huri
  have hsize : (c.sealSegments uuids).recordedSize seg = c.recordedSize seg := by
    unfold Catalog.recordedSize Catalog.sealSegments
    dsimp only
    split <;> rfl
  rw [hsize]
  exact hinv.recorded seg hseg huri

section Schema

variable (hschema : ∀ v, cfg.reread v = some v)
include hschema

omit [Min W] [Max W] in
theorem CompactConfig.rereadRows_eq (rows : List (LogEntry R V)) : cfg.rereadRows rows = rows := by
  have hentry : ∀ e : LogEntry R V, rereadEntry cfg.reread e = some e := by
    rintro ⟨row, change, seq, write, micros⟩
    cases change with
    | upsert v => simp [rereadEntry, hschema]
    | delete => rfl
  rw [rereadRows, List.filterMap_congr (fun e _ => hentry e), List.filterMap_some]

theorem BudgetInv.mergeSegments (hinv : BudgetInv cfg c) {inputs : List PersistSegment} {m : Catalog n R V W}
    (h : c.mergeSegments cfg logKind inputs = some m)
    (hsize : (inputs.map (c.footprint cfg)).sum ≤ cfg.maxSegmentBytes) :
    m.MergedFilesFit cfg ∧ ∀ seg ∈ m.store.persistSegments, seg.objectUri = .segment seg.uuid →
      m.recordedSize seg = m.footprint cfg seg := by
  obtain ⟨hinto, hread, hcolumns⟩ := Catalog.mergeSegments_eq_some h
  obtain ⟨⟨-, -, hmem⟩, hstore⟩ := Store.mergeInto_eq_some.mp hinto
  constructor
  · intro file hfile
    rw [← hstore] at hfile ⊢
    change file < c.store.mergedFiles + 1 at hfile
    by_cases hnew : file = c.store.mergedFiles
    · subst hnew
      have htotal : cfg.batchInMemoryBytes (inputs.flatMap c.store.segmentRows) =
          (inputs.map (c.footprint cfg)).sum := by
        rw [CompactConfig.batchInMemoryBytes, List.flatMap_def, List.map_flatten, List.sum_flatten, List.map_map,
          List.map_map]
        rfl
      simp only [CompactConfig.rereadRows_eq hschema]
      simpa [Store.putObject, htotal] using hsize
    · have hne : ObjectUri.merged file ≠ .merged c.store.mergedFiles := by
        intro heq
        exact hnew (ObjectUri.merged.inj heq)
      simpa [Store.putObject, Function.update_of_ne hne] using hinv.fit file (by omega)
  · intro seg' hseg' huri
    rw [Catalog.persistSegments_mergeSegments h] at hseg'
    obtain ⟨seg, hseg, rfl⟩ := List.mem_map.mp hseg'
    rw [objectUri_repointSegment] at huri
    split at huri
    · cases huri
    · rename_i hnot
      have hlookup : (mergedSlices 0 inputs).lookup seg.uuid = none := by
        rw [← Option.isNone_iff_eq_none, ← Option.not_isSome, lookup_mergedSlices_isSome, decide_eq_false hnot]
        rfl
      have hcount : ∀ seg ∈ inputs, seg.rowCount = (cfg.rereadRows (c.store.segmentRows seg)).length := by
        intro seg hseg
        rw [CompactConfig.length_rereadRows (hread seg hseg)]
        exact hinv.ok.segments.counted seg (hmem seg hseg).1
      have hrows := Store.segmentRows_mergeInto hinto hinv.ok.uuids (fun seg hseg => hinv.ok.segments.objectUri_ne hseg)
        hcount hseg
      rw [if_neg (fun hin => hnot (List.mem_map_of_mem hin))] at hrows
      rw [Catalog.recordedSize, Catalog.footprint, hrows, repointSegment_uuid, hcolumns]
      simp only [hlookup]
      rw [repointSegment_uuid] at huri
      exact hinv.recorded seg hseg huri

theorem BudgetInv.step {op : ScopeOp R V} (hinv : BudgetInv cfg c) (hbudget : WithinBudget cfg c op)
    (h : scopeStep cfg c op = some c') : BudgetInv cfg c' := by
  cases op with
  | persist target upserts deletes persistedAt seq now =>
      obtain ⟨hfresh, rfl⟩ := scopeStep_persist_eq_some.mp h
      exact hinv.persist hfresh
  | compact order logKind minPersistedAt maxPersistedAt =>
      obtain ⟨hshares, hshown, hsizes⟩ := hbudget
      have hactive : ∀ logKind', c'.ActiveSealed logKind' := by
        intro logKind'
        refine Catalog.activeSealed_step hinv.ok (hinv.active logKind') ?_ h
        rintro rfl
        exact hshown rfl
      cases h
      obtain heq | ⟨wave, hwave, ⟨-, heq⟩ | ⟨hinputs, m, hmerge, heq⟩⟩ :=
        c.compactOneScope_cases cfg order logKind minPersistedAt maxPersistedAt
      · rwa [heq]
      · rw [heq] at hactive ⊢
        exact hinv.sealSegments _ hactive
      · rw [heq] at hactive ⊢
        -- The planner kept the recorded sizes within the cap, and they cover the footprint.
        have hsize := (hinv.footprint_le hshares hshown hwave).trans (Catalog.wave_fits hsizes hwave hinputs)
        obtain ⟨hfit, hrecorded⟩ := hinv.mergeSegments hschema hmerge hsize
        refine ⟨(hinv.ok.mergeSegments hmerge).sealSegments _, hactive, ?_, hfit⟩
        intro seg hseg huri
        have hsame : (m.sealSegments (wave.seals.map PersistSegment.uuid)).recordedSize seg = m.recordedSize seg := by
          unfold Catalog.recordedSize Catalog.sealSegments
          dsimp only
          split <;> rfl
        rw [hsame]
        exact hrecorded seg hseg huri

end Schema

/-! ## Runs -/

/-- **The cap along runs.** While the table keeps its schema, every merged file is within the cap in every state that
    is reached by calls that find shares that add up, the active file in their window and sums within `i64`. -/
theorem mergedFilesFit_run (cfg : CompactConfig n R V W) (hschema : ∀ v, cfg.reread v = some v)
    (ops : List (ScopeOp R V)) (c : Catalog n R V W)
    (hbudget : Runs.Meets (scopeStep cfg) (WithinBudget cfg) Catalog.init ops)
    (hrun : Runs.run (scopeStep cfg) Catalog.init ops = some c) : c.MergedFilesFit cfg := by
  have hinit : BudgetInv cfg (Catalog.init : Catalog n R V W) :=
    ⟨Catalog.ok_init, fun _ u hu => absurd hu List.not_mem_nil, fun seg hseg => absurd hseg List.not_mem_nil,
      fun file hfile => absurd hfile (Nat.not_lt_zero file)⟩
  exact (Runs.invariant_of_step (fun _ _ _ hinv hbudget h => hinv.step hschema hbudget h) hinit hbudget hrun).fit

/-- One row of 100, two rows of 100 and 101, one row of 100, with a cap of 400. The first merge writes 301 and
    records 100 and 200, so the second one plans 400 and writes 401. -/
def roundedShareRun : List (ScopeOp Nat Int) :=
  [persistAt 1 [100], persistAt 2 [100, 101], .compact [] .upsertLog none none, persistAt 3 [100],
    .compact [] .upsertLog none none]

theorem mergedFilesFit_fails :
    Runs.Meets (scopeStep (valuedRows 400)) (PersistsFit (valuedRows 400)) Catalog.init roundedShareRun ∧
      ∃ c, Runs.run (scopeStep (valuedRows 400)) Catalog.init roundedShareRun = some c ∧
        ¬ c.MergedFilesFit (valuedRows 400) := by
  have hrun : (Runs.run (scopeStep (valuedRows 400)) Catalog.init roundedShareRun).map
      (fun c => decide (¬ c.MergedFilesFit (valuedRows 400))) = some true := by decide +kernel
  obtain ⟨c, hc, hfails⟩ := Option.map_eq_some_iff.mp hrun
  exact ⟨by decide +kernel, c, hc, of_decide_eq_true hfails⟩

/-- Shares that divide evenly. -/
def evenShareRun : List (ScopeOp Nat Int) :=
  [persistAt 1 [100], persistAt 2 [100, 100], .compact [] .upsertLog none none, persistAt 3 [100],
    .compact [] .upsertLog none none]

theorem mergedFilesFit_evenShare :
    Runs.Meets (scopeStep (valuedRows 400)) (WithinBudget (valuedRows 400)) Catalog.init evenShareRun ∧
      ∃ c, Runs.run (scopeStep (valuedRows 400)) Catalog.init evenShareRun = some c ∧
        c.MergedFilesFit (valuedRows 400) := by
  have hbudget : Runs.Meets (scopeStep (valuedRows 400)) (WithinBudget (valuedRows 400)) Catalog.init
      evenShareRun := by decide +kernel
  have hrun : (Runs.run (scopeStep (valuedRows 400)) Catalog.init evenShareRun).isSome := by decide +kernel
  obtain ⟨c, hc⟩ := Option.isSome_iff_exists.mp hrun
  exact ⟨hbudget, c, hc, mergedFilesFit_run _ (fun _ => rfl) _ c hbudget hc⟩

end Penca.Compact
