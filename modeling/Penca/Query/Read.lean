import Penca.Lifecycle.Invariant
import Penca.Query.Plan

/-!
# `Query.Read` — what a read plan returns

A read is right when it returns the replay of the entries visible at its position. `PlanCovers` says what
that takes of a plan, whichever states its statements ran on: the snapshot holds the replay up to its
position, everything visible above the fence is in hot, everything visible at or below the fence and past
the snapshot is in a fetched segment. What remains is the cold read's missing lower bound: a fetched segment
that straddles the snapshot's position brings back entries the snapshot already folded (`staleEntries`), and
these decide a row that nothing newer mentions.

- **`PlanCovers.mem_readPlan_iff`**: a covering plan returns the replay if its leftovers agree with the snapshot.
- **`StaleFree`** says that they do, of every snapshot of a state.
- **The statements of a plan** on a branch: which snapshot is picked and what it folded, which segments are
  fetched, where the fence lies.
-/

namespace Penca

open Newest

variable {R V : Type} [DecidableEq R]

/-! ## Executing an assembled plan -/

section Execute

omit [DecidableEq R]

variable {rs : ReadSnapshot} {hotMin fence : Int} {snapshot : Option (TableSnapshot R V)}
  {hotPresent : Bool} {segments : List PersistSegment} {e : LogEntry R V}

theorem ReadSnapshot.sees_tightenForHot (rs : ReadSnapshot) (e : LogEntry R V) :
    (rs.tightenForHot rs.planAsOfMicros).sees e = rs.sees e := by
  cases rs <;> simp [tightenForHot, planAsOfMicros, sees]

/-- The cold clause is the visibility of the read position, cut by the fence. -/
theorem coldVisible_iff {p : PersistPlan} (hmax : p.maxMicros = satSucc rs.planAsOfMicros)
    (hseq : p.maxSeq = some fence) (he : e.commitMicros < i64Max) :
    coldVisible rs p e = true ↔ e.commitSeqNum ≤ fence ∧ rs.sees e = true := by
  unfold coldVisible
  rw [hmax, hseq, Bool.and_eq_true, decide_eq_true_eq, lt_satSucc_iff he]
  cases rs <;>
    simp only [ReadSnapshot.planAsOfMicros, ReadSnapshot.planCommitSeqUpper, foldColdSeqUpper,
      ReadSnapshot.sees, Option.all_some, decide_eq_true_eq] <;> omega

theorem Store.mem_hotEntries_planFrom {s : Store R V} :
    e ∈ s.hotEntries rs (planFrom rs.planAsOfMicros hotMin snapshot fence hotPresent segments) ↔
      hotPresent = true ∧ e ∈ s.hot ∧ fence < e.commitSeqNum ∧ rs.sees e = true := by
  cases hotPresent with
  | false => simp [hotEntries, planFrom, assemblePlan]
  | true =>
      simp [hotEntries, planFrom, assemblePlan, planHotStorage, hotVisible,
        ReadSnapshot.sees_tightenForHot]

/-- The persist part of an assembled plan holds the fetched segments, if there are any. -/
theorem planFrom_persist (h0 : hotMin ≠ 0) {asOfMicros : Int} :
    ((planFrom asOfMicros hotMin snapshot fence hotPresent segments).coldStorage.bind
      ColdStoragePlan.persist) =
      if segments = [] then none
      else some
        { upsertSegments := segments.filter (fun seg => seg.logKind = .upsertLog)
          deleteSegments := segments.filter (fun seg => seg.logKind = .deleteLog)
          maxMicros := satSucc asOfMicros, maxSeq := some fence } := by
  have hempty : ((segments.filter (fun seg => seg.logKind = .upsertLog)).isEmpty &&
      (segments.filter (fun seg => seg.logKind = .deleteLog)).isEmpty) = decide (segments = []) := by
    cases segments with
    | nil => rfl
    | cons seg segs => cases hk : seg.logKind <;> simp [hk]
  simp only [planFrom, assemblePlan, planColdStorage, h0, if_false, hempty]
  by_cases hsegs : segments = []
  · cases snapshot <;> simp [hsegs]
  · simp [hsegs]

/-- Every segment is an upsert segment or a delete segment. -/
theorem exists_classified_iff {segments : List PersistSegment} {P : PersistSegment → Prop} :
    (∃ seg, (seg ∈ segments ∧ seg.logKind = .upsertLog ∨ seg ∈ segments ∧ seg.logKind = .deleteLog) ∧ P seg) ↔
      ∃ seg ∈ segments, P seg := by
  refine exists_congr (fun seg => and_congr_left (fun _ => ?_))
  cases seg.logKind <;> simp

theorem Store.mem_coldEntries_planFrom {s : Store R V} (h0 : hotMin ≠ 0)
    (he : ∀ seg ∈ segments, ∀ e ∈ s.readSegment seg, e.commitMicros < i64Max) :
    e ∈ s.coldEntries rs (planFrom rs.planAsOfMicros hotMin snapshot fence hotPresent segments) ↔
      (∃ seg ∈ segments, e ∈ s.readSegment seg) ∧ e.commitSeqNum ≤ fence ∧ rs.sees e = true := by
  unfold coldEntries
  rw [planFrom_persist h0]
  by_cases hsegs : segments = []
  · simp [hsegs]
  · simp only [hsegs, if_false, List.mem_filter, List.mem_flatMap, List.mem_append, decide_eq_true_eq]
    rw [exists_classified_iff]
    refine and_congr_right (fun ⟨seg, hseg, hmem⟩ => ?_)
    exact coldVisible_iff rfl rfl (he seg hseg e hmem)

theorem snapshotRows_planFrom {asOfMicros : Int} (h0 : hotMin ≠ 0) :
    (planFrom asOfMicros hotMin snapshot fence hotPresent segments).snapshotRows =
      (snapshot.map TableSnapshot.rows).getD [] := by
  unfold Plan.snapshotRows planFrom assemblePlan planColdStorage
  simp only [h0, if_false]
  cases snapshot with
  | none => split <;> rfl
  | some n => rfl

end Execute

/-! ## What a plan must cover -/

/-- The entries of the history visible at a read position. -/
def History.visibleTo (H : History R V) (rs : ReadSnapshot) : List (LogEntry R V) :=
  H.entries.filter rs.sees

omit [DecidableEq R] in
theorem History.mem_visibleTo {H : History R V} {rs : ReadSnapshot} {e : LogEntry R V} :
    e ∈ H.visibleTo rs ↔ e ∈ H.entries ∧ rs.sees e = true := List.mem_filter

omit [DecidableEq R] in
theorem History.separated_visibleTo (H : History R V) (rs : ReadSnapshot) :
    Separated LogEntry.version LogEntry.rowUuid {e | e ∈ H.visibleTo rs} :=
  H.separated.mono (fun _ he => (History.mem_visibleTo.mp he).1)

/-- The entry is folded into the snapshot of the plan. -/
def foldedIn (snapshot : Option (TableSnapshot R V)) (e : LogEntry R V) : Bool :=
  snapshot.any (fun n => decide (e.commitMicros ≤ n.snapshottedAtMicros))

/-- What the statements of a plan must have returned, against the history and the store the plan is
    executed on. -/
structure PlanCovers (H : History R V) (rs : ReadSnapshot) (s : Store R V)
    (snapshot : Option (TableSnapshot R V)) (fence : Int) (hotPresent : Bool)
    (segments : List PersistSegment) : Prop where
  hotSub : ∀ e ∈ s.hot, e ∈ H.entries
  coldSub : ∀ seg ∈ segments, ∀ e ∈ s.readSegment seg, e ∈ H.entries
  folded : ∀ e ∈ H.entries, foldedIn snapshot e = true → e.commitSeqNum ≤ fence ∧ rs.sees e = true
  nodup : ∀ n, snapshot = some n → (n.rows.map Prod.fst).Nodup
  replay : ∀ n, snapshot = some n →
    ∀ r v, (r, v) ∈ n.rows ↔ newestEffect (H.upTo n.snapshottedAtMicros) r = some v
  hot : ∀ e ∈ H.entries, rs.sees e = true → fence < e.commitSeqNum → hotPresent = true ∧ e ∈ s.hot
  cold : ∀ e ∈ H.entries, rs.sees e = true → e.commitSeqNum ≤ fence → foldedIn snapshot e = false →
    ∃ seg ∈ segments, e ∈ s.readSegment seg

section Covers

variable {H : History R V} {rs : ReadSnapshot} {s : Store R V} {snapshot : Option (TableSnapshot R V)}
  {hotMin fence : Int} {hotPresent : Bool} {segments : List PersistSegment}
  (hc : PlanCovers H rs s snapshot fence hotPresent segments) (h0 : hotMin ≠ 0)
include hc

theorem PlanCovers.filter_visibleTo {n : TableSnapshot R V} (hn : snapshot = some n) :
    (H.visibleTo rs).filter (foldedIn snapshot) = H.upTo n.snapshottedAtMicros := by
  simp only [History.visibleTo, History.upTo, List.filter_filter, foldedIn, hn, Option.any_some]
  refine List.filter_congr (fun e he => ?_)
  by_cases hle : e.commitMicros ≤ n.snapshottedAtMicros
  · have hsees := (hc.folded e he (by simp [foldedIn, hn, hle])).2
    simp [hle, hsees]
  · simp [hle]

/-- The snapshot of the plan holds the replay of what is folded into it. -/
theorem PlanCovers.mem_snapshotRows {r : R} {v : V} :
    (r, v) ∈ (snapshot.map TableSnapshot.rows).getD [] ↔
      newestEffect ((H.visibleTo rs).filter (foldedIn snapshot)) r = some v := by
  cases hn : snapshot with
  | none => simp [foldedIn, newestEffect, outcome]
  | some n =>
      rw [← hn, hc.filter_visibleTo hn]
      simpa [hn] using hc.replay n hn r v

include h0

theorem PlanCovers.mem_coldEntries {e : LogEntry R V} :
    e ∈ s.coldEntries rs (planFrom rs.planAsOfMicros hotMin snapshot fence hotPresent segments) ↔
      (∃ seg ∈ segments, e ∈ s.readSegment seg) ∧ e.commitSeqNum ≤ fence ∧ rs.sees e = true :=
  Store.mem_coldEntries_planFrom h0 (fun seg hseg e he =>
    (History.commitMicros_inRange (hc.coldSub seg hseg e he)).2)

/-- Everything hot is newer than everything cold: the fence separates the tiers. -/
theorem PlanCovers.tiers_ordered :
    ∀ h ∈ s.hotEntries rs (planFrom rs.planAsOfMicros hotMin snapshot fence hotPresent segments),
      ∀ c ∈ s.coldEntries rs (planFrom rs.planAsOfMicros hotMin snapshot fence hotPresent segments),
        c.version < h.version ∧ c.commitMicros ≤ h.commitMicros := by
  intro h hh c hcold
  obtain ⟨-, hhot, hlt, -⟩ := Store.mem_hotEntries_planFrom.mp hh
  obtain ⟨⟨seg, hseg, hmem⟩, hle, -⟩ := (hc.mem_coldEntries h0).mp hcold
  have hmicros := (History.commitSeqNum_le_iff (hc.coldSub seg hseg c hmem) (hc.hotSub h hhot)).mp
    (by omega)
  exact ⟨LogEntry.version_lt_of_commitSeqNum_lt (by omega), hmicros⟩

theorem PlanCovers.mem_visibleTo_of_mem {e : LogEntry R V}
    (he : e ∈ s.hotEntries rs (planFrom rs.planAsOfMicros hotMin snapshot fence hotPresent segments) ++
      s.coldEntries rs (planFrom rs.planAsOfMicros hotMin snapshot fence hotPresent segments)) :
    e ∈ H.visibleTo rs := by
  rcases List.mem_append.mp he with he | he
  · obtain ⟨-, hhot, -, hsees⟩ := Store.mem_hotEntries_planFrom.mp he
    exact History.mem_visibleTo.mpr ⟨hc.hotSub e hhot, hsees⟩
  · obtain ⟨⟨seg, hseg, hmem⟩, -, hsees⟩ := (hc.mem_coldEntries h0).mp he
    exact History.mem_visibleTo.mpr ⟨hc.coldSub seg hseg e hmem, hsees⟩

/-- A folded entry the tiers still hold comes from a fetched segment, and every such entry is held. -/
theorem PlanCovers.mem_tiers_of_folded {e : LogEntry R V} (hfold : foldedIn snapshot e = true) :
    e ∈ s.hotEntries rs (planFrom rs.planAsOfMicros hotMin snapshot fence hotPresent segments) ++
        s.coldEntries rs (planFrom rs.planAsOfMicros hotMin snapshot fence hotPresent segments) ↔
      ∃ seg ∈ segments, e ∈ s.readSegment seg := by
  rw [List.mem_append, Store.mem_hotEntries_planFrom, hc.mem_coldEntries h0]
  constructor
  · rintro (⟨-, hhot, hlt, -⟩ | ⟨hseg, -, -⟩)
    · have := (hc.folded e (hc.hotSub e hhot) hfold).1
      omega
    · exact hseg
  · rintro ⟨seg, hseg, hmem⟩
    obtain ⟨hle, hsees⟩ := hc.folded e (hc.coldSub seg hseg e hmem) hfold
    exact Or.inr ⟨⟨seg, hseg, hmem⟩, hle, hsees⟩

/-- **A covering plan returns the replay** when the leftovers in its segments agree with the snapshot. -/
theorem PlanCovers.mem_readPlan_iff (stale : List (LogEntry R V))
    (hmem : ∀ e, e ∈ stale ↔ foldedIn snapshot e = true ∧ ∃ seg ∈ segments, e ∈ s.readSegment seg)
    (hstale : ∀ e ∈ stale, newestEffect stale e.rowUuid =
      newestEffect ((H.visibleTo rs).filter (foldedIn snapshot)) e.rowUuid) {r : R} {v : V} :
    (r, v) ∈ s.readPlan rs (planFrom rs.planAsOfMicros hotMin snapshot fence hotPresent segments) ↔
      newestEffect (H.visibleTo rs) r = some v := by
  unfold Store.readPlan
  rw [snapshotRows_planFrom h0]
  refine mem_mergeRows_iff_newestEffect (foldedIn snapshot) (H.separated_visibleTo rs)
    (fun e he => hc.mem_visibleTo_of_mem h0 he) (hc.tiers_ordered h0) ?_ ?_
    (fun r v => hc.mem_snapshotRows) ?_
  · -- The snapshot's part of the history is the older part.
    intro e he e' he' hfold hfold'
    cases hn : snapshot with
    | none => simp [foldedIn, hn] at hfold
    | some n =>
        simp only [foldedIn, hn, Option.any_some, decide_eq_true_eq, decide_eq_false_iff_not] at hfold hfold'
        exact (History.version_lt_of_commitMicros_lt (History.mem_visibleTo.mp he).1
          (History.mem_visibleTo.mp he').1 (by omega)).le
  · -- Past the snapshot the fence decides which tier holds an entry.
    intro e he hfold
    obtain ⟨hent, hsees⟩ := History.mem_visibleTo.mp he
    rw [List.mem_append, Store.mem_hotEntries_planFrom, hc.mem_coldEntries h0]
    by_cases hle : e.commitSeqNum ≤ fence
    · exact Or.inr ⟨hc.cold e hent hsees hle hfold, hle, hsees⟩
    · obtain ⟨hpresent, hhot⟩ := hc.hot e hent hsees (by omega)
      exact Or.inl ⟨hpresent, hhot, by omega, hsees⟩
  · -- A row only leftovers mention: the tiers hold exactly the leftovers of the row.
    rintro r ⟨a, ha, rfl⟩ hall
    have hcongr : newestEffect (s.hotEntries rs (planFrom rs.planAsOfMicros hotMin snapshot fence
        hotPresent segments) ++ s.coldEntries rs (planFrom rs.planAsOfMicros hotMin snapshot fence
        hotPresent segments)) a.rowUuid = newestEffect stale a.rowUuid := by
      have hsep : Separated LogEntry.version LogEntry.rowUuid {e | e ∈ stale} := by
        refine H.separated.mono (fun e he => ?_)
        obtain ⟨-, seg, hseg, hmem⟩ := (hmem e).mp he
        exact hc.coldSub seg hseg e hmem
      refine outcome_congr hsep (fun e hrow => ?_)
      rw [hmem]
      constructor
      · intro he
        have hfold := hall e he hrow
        exact ⟨hfold, (hc.mem_tiers_of_folded h0 hfold).mp he⟩
      · rintro ⟨hfold, hseg⟩
        exact (hc.mem_tiers_of_folded h0 hfold).mpr hseg
    have hfold := hall a ha rfl
    rw [hcongr]
    exact hstale a ((hmem a).mpr ⟨hfold, (hc.mem_tiers_of_folded h0 hfold).mp ha⟩)

theorem PlanCovers.nodup_readPlan :
    ((s.readPlan rs (planFrom rs.planAsOfMicros hotMin snapshot fence hotPresent segments)).map
      Prod.fst).Nodup := by
  refine nodup_map_fst_mergeRows ?_
  rw [snapshotRows_planFrom h0]
  cases hn : snapshot with
  | none => simp
  | some n => exact hc.nodup n hn

end Covers

/-! ## Leftovers -/

/-- The entries already folded into `n` that a segment past its position still holds. A read over `n`
    fetches that segment and, having no lower bound per row, sees them again. -/
def Store.staleEntries (s : Store R V) (n : TableSnapshot R V) : List (LogEntry R V) :=
  ((s.views.filter (fun v => decide (n.snapshottedAtMicros < v.maxTxCommitMicros))).flatMap
    SegmentView.rows).filter (fun e => decide (e.commitMicros ≤ n.snapshottedAtMicros))

/-- The persisted entries at or below the position of `n`. -/
def Store.coveredEntries (s : Store R V) (n : TableSnapshot R V) : List (LogEntry R V) :=
  (s.views.flatMap SegmentView.rows).filter (fun e => decide (e.commitMicros ≤ n.snapshottedAtMicros))

/-- A row with leftovers of `n` gets from them what all entries up to the snapshot say. -/
def Store.StaleFreeFor (s : Store R V) (n : TableSnapshot R V) : Prop :=
  ∀ e ∈ s.staleEntries n,
    newestEffect (s.staleEntries n) e.rowUuid = newestEffect (s.coveredEntries n) e.rowUuid

/-- No snapshot has misleading leftovers. -/
def Store.StaleFree (s : Store R V) : Prop := ∀ n ∈ s.snapshots, s.StaleFreeFor n

instance [DecidableEq V] (s : Store R V) (n : TableSnapshot R V) : Decidable (s.StaleFreeFor n) :=
  inferInstanceAs (Decidable (∀ e ∈ s.staleEntries n, _ = _))

instance [DecidableEq V] (s : Store R V) : Decidable s.StaleFree :=
  inferInstanceAs (Decidable (∀ n ∈ s.snapshots, s.StaleFreeFor n))

section Leftovers

variable {s : Store R V} {H : History R V} (hinv : Inv s H)

omit [DecidableEq R] in
theorem Store.mem_staleEntries {n : TableSnapshot R V} {e : LogEntry R V} :
    e ∈ s.staleEntries n ↔ e.commitMicros ≤ n.snapshottedAtMicros ∧
      ∃ v ∈ s.views, n.snapshottedAtMicros < v.maxTxCommitMicros ∧ e ∈ v.rows := by
  simp only [staleEntries, List.mem_filter, List.mem_flatMap, decide_eq_true_eq, and_assoc]
  tauto

include hinv

theorem Inv.newestEffect_coveredEntries {n : TableSnapshot R V} (hn : n ∈ s.snapshots) (r : R) :
    newestEffect (s.coveredEntries n) r = newestEffect (H.upTo n.snapshottedAtMicros) r := by
  have hsep : Separated LogEntry.version LogEntry.rowUuid {e | e ∈ H.upTo n.snapshottedAtMicros} :=
    H.separated.mono (fun e he => (History.mem_upTo.mp he).1)
  refine outcome_congr hsep (fun e _ => ?_)
  simp only [Store.coveredEntries, List.mem_filter, List.mem_flatMap, decide_eq_true_eq,
    History.mem_upTo]
  refine and_congr_left (fun hle => ⟨fun ⟨v, hv, hev⟩ => (hinv.stored v hv e hev).1, fun he => ?_⟩)
  obtain ⟨p, hp, hnp, -⟩ := (hinv.snapshots n hn).covered
  exact (hinv.stored_iff e he).mp ⟨p, hp, hle.trans hnp⟩

end Leftovers

/-! ## The statements of a plan -/

section Statements

omit [DecidableEq R]

variable {s : Store R V} {L : BranchLog R V} {floor : Option Int} {rs : ReadSnapshot}

/-- The snapshot a read of the state picks. -/
def Store.pickFor (s : Store R V) (rs : ReadSnapshot) : Option (TableSnapshot R V) :=
  s.pickSnapshotAsOf (computeSnapshotPickerAsOf rs.planAsOfMicros s.hotMin) rs.planCommitSeqUpper

/-- The fence a read of the state uses. -/
def Store.fenceFor (s : Store R V) (rs : ReadSnapshot) : Int :=
  (s.phaseOneFenceAndExistence (wSnapOf (s.pickFor rs))).1

theorem Store.plan_eq_planFrom (rs : ReadSnapshot) (h0 : s.hotMin ≠ 0) :
    s.plan rs.planAsOfMicros rs.planCommitSeqUpper =
      planFrom rs.planAsOfMicros s.hotMin (s.pickFor rs) (s.fenceFor rs) (!s.hot.isEmpty)
        (s.planSegments rs.planAsOfMicros s.hotMin rs.planCommitSeqUpper (s.pickFor rs)) := by
  simp only [plan, hotMinAndSnapshotPick, h0, if_false]
  rfl

/-- The fence is at least every purge fence and the picked `W_snap`, and is one of them. -/
theorem Store.phaseOneFence_spec (wSnap : Int) :
    (∀ pu ∈ s.purges, pu ≤ (s.phaseOneFenceAndExistence wSnap).1) ∧
      wSnap ≤ (s.phaseOneFenceAndExistence wSnap).1 ∧
      ((s.phaseOneFenceAndExistence wSnap).1 ∈ s.purges ∨
        (s.phaseOneFenceAndExistence wSnap).1 = wSnap) := by
  unfold phaseOneFenceAndExistence
  cases hmax : s.purgeSeqWatermark with
  | none =>
      have hnil : s.purges = [] := List.max?_eq_none_iff.mp hmax
      simp [hnil]
  | some pu =>
      obtain ⟨hmem, hle⟩ := List.max?_eq_some_iff.mp hmax
      refine ⟨fun q hq => le_max_of_le_left (hle q hq), le_max_right _ _, ?_⟩
      change max pu wSnap ∈ s.purges ∨ max pu wSnap = wSnap
      rcases max_choice pu wSnap with h | h
      · exact Or.inl (by rwa [h])
      · exact Or.inr h

variable (hinv : BranchInv s L floor)
include hinv

/-- A picked snapshot is committed and within the read position. -/
theorem BranchInv.of_pickSnapshotAsOf {asOfMicros : Int} {commitSeqUpper : Option Int}
    {n : TableSnapshot R V} (h : s.pickSnapshotAsOf asOfMicros commitSeqUpper = some n) :
    n ∈ s.snapshots ∧ n.snapshottedAtMicros ≤ asOfMicros ∧
      ∀ seq, commitSeqUpper = some seq → n.commitSeqNum ≤ seq := by
  have hmem := (hinv.of_pickSnapshot (fun n hn => (List.mem_filter.mp hn).1) h).1
  obtain ⟨hn, hbound⟩ := List.mem_filter.mp hmem
  rw [Bool.and_eq_true, decide_eq_true_eq] at hbound
  refine ⟨hn, hbound.1, ?_⟩
  rintro seq rfl
  simpa using hbound.2

/-- What a snapshot within the read position folded is visible to the read. -/
theorem BranchInv.sees_of_folded {n : TableSnapshot R V} (hn : n ∈ s.snapshots)
    (hasOf : n.snapshottedAtMicros ≤ rs.planAsOfMicros)
    (hseq : ∀ seq, rs.planCommitSeqUpper = some seq → n.commitSeqNum ≤ seq) {e : LogEntry R V}
    (he : e ∈ L.entries) (hle : e.commitMicros ≤ n.snapshottedAtMicros) : rs.sees e = true := by
  have hreach := (hinv.snapshots n hn).reaches e he hle
  cases rs with
  | asOfMicros ts => exact decide_eq_true (hle.trans hasOf)
  | asOfSeq seq => exact decide_eq_true (hreach.trans (hseq seq rfl))
  | latestSeq seq => exact decide_eq_true (hreach.trans (hseq seq rfl))

/-- Which of the segments that hold a visible entry the plan fetches: those past the snapshot's position
    that begin below the cutoff. -/
theorem BranchInv.exists_planSegments_iff {hotMin : Int} {snapshot : Option (TableSnapshot R V)}
    (hsnap : ∀ n, snapshot = some n → n.snapshottedAtMicros < i64Max) (hcut : i64Min < hotMin)
    {e : LogEntry R V} (hsees : rs.sees e = true) :
    (∃ seg ∈ s.planSegments rs.planAsOfMicros hotMin rs.planCommitSeqUpper snapshot,
        e ∈ s.readSegment seg) ↔
      ∃ v ∈ s.views, (∀ n, snapshot = some n → n.snapshottedAtMicros < v.maxTxCommitMicros) ∧
        v.minTxCommitMicros < hotMin ∧ e ∈ v.read := by
  rw [Store.planSegments, ← Store.mem_windowEntries, Store.mem_windowEntries_read hinv.segments]
  refine exists_congr (fun v => and_congr_right (fun hv => ?_))
  rw [← and_assoc]
  refine and_congr_left (fun hev => ?_)
  have hrange := L.inRange e (hinv.stored v hv e hev).1.1
  have hasOf : e.commitMicros ≤ rs.planAsOfMicros := by
    cases rs with
    | asOfMicros ts => exact of_decide_eq_true hsees
    | asOfSeq seq => exact hrange.2.le
    | latestSeq seq => exact hrange.2.le
  have hseq : rs.planCommitSeqUpper.all (fun n => decide (e.commitSeqNum ≤ n)) = true := by
    cases rs with
    | asOfMicros ts => rfl
    | asOfSeq seq => exact hsees
    | latestSeq seq => exact hsees
  have hbounds := hinv.bounded v hv
  have hmin := (hbounds.micros e hev).1
  have hvrange := hbounds.inRange
  have hupper : rs.planCommitSeqUpper.all (fun n => decide (v.minCommitSeqNum ≤ n)) = true := by
    have hle := hbounds.seq e hev
    cases hu : rs.planCommitSeqUpper with
    | none => rfl
    | some n =>
        rw [hu] at hseq
        simp only [Option.all_some, decide_eq_true_eq] at hseq ⊢
        omega
  -- The `as_of` half of the upper bound is met anyway: the segment holds a visible entry.
  have hto : v.minTxCommitMicros ≤ satPred (coldCommittedAtMax rs.planAsOfMicros hotMin) ↔
      v.minTxCommitMicros < hotMin := by
    unfold coldCommittedAtMax satPred satSucc i64Max i64Min at *
    omega
  simp only [SegmentView.overlapsWindow, hupper, Option.all_some, Bool.and_true, Bool.and_eq_true,
    decide_eq_true_eq, hto]
  refine and_congr_left (fun _ => ?_)
  cases hn : snapshot with
  | none => simp
  | some n =>
      simp only [Option.map_some, Option.all_some, decide_eq_true_eq, gt_iff_lt, Option.some.injEq,
        forall_eq']
      exact lt_iff_satPred_satSucc (by unfold i64Min; omega) (hsnap n hn)

end Statements

omit [DecidableEq R] in
theorem Store.mem_hotEntries_prePersist {s : Store R V} {rs : ReadSnapshot} {e : LogEntry R V} :
    e ∈ s.hotEntries rs (prePersistPlan rs.planAsOfMicros) ↔ e ∈ s.hot ∧ rs.sees e = true := by
  simp [hotEntries, prePersistPlan, assemblePlan, planHotStorage, hotVisible, ReadSnapshot.sees_tightenForHot]

/-- Before the first Persist a read ranks hot rows alone. -/
theorem mem_mergeRows_hot {hot visible : List (LogEntry R V)}
    (hsep : Separated LogEntry.version LogEntry.rowUuid {e | e ∈ visible}) (hmem : ∀ e, e ∈ hot ↔ e ∈ visible)
    {r : R} {v : V} :
    (r, v) ∈ mergeRows (mergeResolved hot) (mergeResolved []) [] ↔ newestEffect visible r = some v := by
  refine mem_mergeRows_iff_newestEffect (fun _ => false) hsep ?_ (by simp) (by simp) ?_ ?_ ?_
  · intro e he
    exact (hmem e).mp (by simpa using he)
  · intro e he _
    exact List.mem_append_left _ ((hmem e).mpr he)
  · simp [newestEffect, outcome]
  · rintro r ⟨e, he, hr⟩ hall
    exact absurd (hall e he hr) (by simp)

section Unforked

variable {s : Store R V} {H : History R V} (hinv : Inv s H) {rs : ReadSnapshot}
include hinv

omit [DecidableEq R] in
/-- What is past every purge fence is hot, and the existence probe sees it. -/
theorem Inv.mem_hot_of_fence {e : LogEntry R V} (he : e ∈ H.entries)
    (hlt : ∀ pu ∈ s.purges, pu < e.commitSeqNum) : (!s.hot.isEmpty) = true ∧ e ∈ s.hot := by
  have hhot : e ∈ s.hot := hinv.mem_hot.mpr ⟨he, hlt⟩
  refine ⟨?_, hhot⟩
  simpa using List.ne_nil_of_mem hhot

omit [DecidableEq R] in
/-- The leftovers of a snapshot within the read position are what the fetched segments hold of it. -/
theorem Inv.mem_staleEntries_iff {n : TableSnapshot R V} (hn : n ∈ s.snapshots)
    (hasOf : n.snapshottedAtMicros ≤ rs.planAsOfMicros)
    (hseq : ∀ seq, rs.planCommitSeqUpper = some seq → n.commitSeqNum ≤ seq) {hotMin : Int}
    (hmin : n.snapshottedAtMicros < hotMin) {e : LogEntry R V} :
    e ∈ s.staleEntries n ↔ foldedIn (some n) e = true ∧
      ∃ seg ∈ s.planSegments rs.planAsOfMicros hotMin rs.planCommitSeqUpper (some n),
        e ∈ s.readSegment seg := by
  have hrange : ∀ m, some n = some m → m.snapshottedAtMicros < i64Max := by
    intro m hm
    obtain rfl := Option.some.inj hm
    exact hinv.snapshottedAt_lt hn
  simp only [Store.mem_staleEntries, foldedIn, Option.any_some, decide_eq_true_eq]
  refine and_congr_right (fun hle => ?_)
  constructor
  · rintro ⟨v, hv, hmax, hev⟩
    have he := (hinv.stored v hv e hev).1
    have hsees := hinv.branch.sees_of_folded hn hasOf hseq he hle
    have hbounds := (hinv.segments.exact_of_mem hv).micros e hev
    have hpos := History.commitMicros_inRange he
    refine (hinv.branch.exists_planSegments_iff hrange (by unfold i64Min; omega) hsees).mpr
      ⟨v, hv, ?_, by omega, (hinv.segments.exact_of_mem hv).read_eq.symm ▸ hev⟩
    intro m hm
    obtain rfl := Option.some.inj hm
    exact hmax
  · rintro ⟨seg, hseg, hes⟩
    have hmem := ((Store.mem_segmentsForWindow_iff hinv.segments.ok).mp hseg).1
    have hes' := hes
    rw [Store.readSegment_eq hinv.segments hmem] at hes'
    have he := (hinv.stored (s.view seg) (List.mem_map_of_mem hmem) e hes').1
    have hsees := hinv.branch.sees_of_folded hn hasOf hseq he hle
    have hpos := History.commitMicros_inRange he
    obtain ⟨v, hv, hmax, -, hev⟩ :=
      (hinv.branch.exists_planSegments_iff hrange (by unfold i64Min; omega) hsees).mp ⟨seg, hseg, hes⟩
    exact ⟨v, hv, hmax n rfl, (hinv.segments.exact_of_mem hv).read_eq ▸ hev⟩

theorem Inv.mem_readPlan_prePersist (hhot : ∀ e ∈ H.visibleTo rs, e ∈ s.hot) :
    ((s.readPlan rs (prePersistPlan rs.planAsOfMicros)).map Prod.fst).Nodup ∧
      ∀ r v, (r, v) ∈ s.readPlan rs (prePersistPlan rs.planAsOfMicros) ↔
        newestEffect (H.visibleTo rs) r = some v := by
  refine ⟨nodup_map_fst_mergeRows (by simp [prePersistPlan, assemblePlan, planColdStorage,
    Plan.snapshotRows]), fun r v => mem_mergeRows_hot (H.separated_visibleTo rs) (fun e => ?_)⟩
  rw [Store.mem_hotEntries_prePersist]
  exact ⟨fun ⟨he, hsees⟩ => History.mem_visibleTo.mpr ⟨(hinv.mem_hot.mp he).1, hsees⟩,
    fun he => ⟨hhot e he, (History.mem_visibleTo.mp he).2⟩⟩

end Unforked

end Penca
