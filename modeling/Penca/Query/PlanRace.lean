import Penca.Query.Read

/-!
# `Query.PlanRace` — a `LatestSeq` read among lifecycle operations, statement by statement

A read is five statements without a surrounding transaction: the fused `hot_min` and snapshot pick, the
snapshot list, the fence and existence probe, the persist-segment fetch, and the hot resolve query. Complete
operations of other callers run between any two of them. The plan keeps the cutoff `hot_min` of its first
statement and takes its fence from the third, so an entry above the cutoff and at or below the fence is in
neither tier unless its segment begins below the cutoff (`Fetchable`).

- **The machine** interleaves operations and statements (`readStep`); `ReadAdmits` is what keeps every
  sequence number in one of the tiers.
- **The invariant** collects what each statement has established. All of it is kept by operations that
  extend the store (`Extends`); what only Purge or Snapshot can break is what the guard is about.
- **Main result:** a guarded run that completes the read returns the replay (`latestSeq_readsReplay`).
-/

namespace Penca

open Newest

variable {R V : Type} [DecidableEq R]

/-! ## The machine -/

/-- What the statements so far have returned. -/
inductive ReadPhase (R V : Type) where
  | start
  | picked (hotMin : Int) (pick : Option (TableSnapshot R V))
  | listed (hotMin : Int) (snapshot : Option (TableSnapshot R V))
  | fenced (hotMin : Int) (snapshot : Option (TableSnapshot R V)) (fence : Int) (hotPresent : Bool)
  | planned (plan : Plan R V)
  | done (rows : List (R × V))
  deriving DecidableEq

/-- The table and the read. -/
structure ReadRace (R V : Type) where
  store : Store R V
  history : History R V
  phase : ReadPhase R V

/-- A complete operation of another caller, or the next statement of the read. -/
inductive ReadEvent (R V : Type) where
  | op (o : Op R V)
  | pick
  | list
  | fence
  | segments
  | resolve

/-- `list_snapshot_segments`: with a cache and a fused pick the snapshot is fetched by identity, otherwise
    it is picked again. -/
def listSnapshotSegments (cached : Bool) (pick repick : Option (TableSnapshot R V)) :
    Option (TableSnapshot R V) :=
  if cached && pick.isSome then pick else repick

/-- One event of a `LatestSeq` read pinned at `N`. -/
def readStep (cfg : PersistConfig R V) (cached : Bool) (N : Int) (c : ReadRace R V) :
    ReadEvent R V → Option (ReadRace R V)
  | .op o => (step cfg c.store o).map (fun s =>
      { c with store := s, history := historyStep c.history o })
  | .pick =>
      match c.phase with
      | .start =>
          let (hotMin, pick) := c.store.hotMinAndSnapshotPick i64Max (some N)
          some { c with phase := if hotMin = 0 then .planned (prePersistPlan i64Max) else .picked hotMin pick }
      | _ => none
  | .list =>
      match c.phase with
      | .picked hotMin pick => some { c with
          phase := .listed hotMin (listSnapshotSegments cached pick
            (c.store.pickSnapshotAsOf (computeSnapshotPickerAsOf i64Max hotMin) (some N))) }
      | _ => none
  | .fence =>
      match c.phase with
      | .listed hotMin snapshot =>
          let (fence, hotPresent) := c.store.phaseOneFenceAndExistence (wSnapOf snapshot)
          some { c with phase := .fenced hotMin snapshot fence hotPresent }
      | _ => none
  | .segments =>
      match c.phase with
      | .fenced hotMin snapshot fence hotPresent => some { c with
          phase := .planned (planFrom i64Max hotMin snapshot fence hotPresent
            (c.store.planSegments i64Max hotMin (some N) snapshot)) }
      | _ => none
  | .resolve =>
      match c.phase with
      | .planned plan => some { c with phase := .done (c.store.readPlan (.latestSeq N) plan) }
      | _ => none

def ReadRace.begin (s : Store R V) (H : History R V) : ReadRace R V := ⟨s, H, .start⟩

/-! ## The guard -/

/-- The cold fetch with cutoff `hotMin` can find the entry: one of its segments begins below the cutoff. -/
def Store.Fetchable (s : Store R V) (hotMin : Int) (e : LogEntry R V) : Prop :=
  ∃ v ∈ s.views, e ∈ v.rows ∧ v.minTxCommitMicros < hotMin

/-- What a Purge would remove of the rows a read at `N` sees. -/
def Store.purgedUpTo (s : Store R V) (N : Int) : List (LogEntry R V) :=
  s.hot.filter (fun e => decide (e.commitSeqNum ≤ N) &&
    (computePurgeWatermark s.snapshotSeqWatermark s.purgeSeqWatermark).any
      (fun pu => decide (e.commitSeqNum ≤ pu)))

/-- What a Purge must leave alone: before the fence is taken it may remove only rows the cold fetch can find,
    afterwards nothing the plan reads from hot. -/
def ReadPhase.AdmitsPurge (N : Int) (s : Store R V) : ReadPhase R V → Prop
  | .picked hotMin _    => ∀ e ∈ s.purgedUpTo N, s.Fetchable hotMin e
  | .listed hotMin _    => ∀ e ∈ s.purgedUpTo N, s.Fetchable hotMin e
  | .fenced _ _ fence _ => ∀ e ∈ s.purgedUpTo N, e.commitSeqNum ≤ fence
  | .planned plan       => ∀ e ∈ s.purgedUpTo N, e ∉ s.hotEntries (.latestSeq N) plan
  | .start | .done _    => True

/-- What a Snapshot that leads to `s'` may cover while the read may still pick it: only rows the cold fetch
    can find. -/
def ReadPhase.AdmitsSnapshot (cached : Bool) (N : Int) (s s' : Store R V) : ReadPhase R V → Prop
  | .picked hotMin pick =>
      (cached = true ∧ pick.isSome = true) ∨
        ∀ n ∈ s'.snapshots, n.snapshottedAtMicros < hotMin → n.commitSeqNum ≤ N →
          ∀ e ∈ s.hot, e.commitSeqNum ≤ n.commitSeqNum → s.Fetchable hotMin e
  | _ => True

/-- The operations of other callers that a phase of the read admits. -/
def ReadPhase.Admits (cfg : PersistConfig R V) (cached : Bool) (N : Int) (s : Store R V)
    (phase : ReadPhase R V) : Op R V → Prop
  | .purge                          => phase.AdmitsPurge N s
  | .snapshot snapshottedAt indexes =>
      phase.AdmitsSnapshot cached N s (s.snapshotLocked cfg snapshottedAt indexes)
  | _ => True

/-- The leftovers of the plan's snapshot do not mislead. -/
def ReadPhase.StaleFree (s : Store R V) : ReadPhase R V → Prop
  | .fenced _ (some n) _ _ => s.StaleFreeFor n
  | _                      => True

/-- The guard on an event: operations keep the rows and are admitted by the phase of the read, and the snapshot
    of the plan has no misleading leftovers when its segments are fetched. -/
def ReadAdmits (cfg : PersistConfig R V) (cached : Bool) (N : Int) (c : ReadRace R V) :
    ReadEvent R V → Prop
  | .op o => KeepsRows cfg c.store o ∧ c.phase.Admits cfg cached N c.store o
  | .segments => c.phase.StaleFree c.store
  | _ => True

instance [DecidableEq V] (s : Store R V) (hotMin : Int) (e : LogEntry R V) :
    Decidable (s.Fetchable hotMin e) :=
  inferInstanceAs (Decidable (∃ v ∈ s.views, _ ∧ _))

instance [DecidableEq V] (N : Int) (s : Store R V) : ∀ phase : ReadPhase R V, Decidable (phase.AdmitsPurge N s)
  | .picked hotMin _    => inferInstanceAs (Decidable (∀ e ∈ s.purgedUpTo N, s.Fetchable hotMin e))
  | .listed hotMin _    => inferInstanceAs (Decidable (∀ e ∈ s.purgedUpTo N, s.Fetchable hotMin e))
  | .fenced _ _ fence _ => inferInstanceAs (Decidable (∀ e ∈ s.purgedUpTo N, e.commitSeqNum ≤ fence))
  | .planned _          => inferInstanceAs (Decidable (∀ e ∈ s.purgedUpTo N, e ∉ _))
  | .start | .done _    => isTrue trivial

instance [DecidableEq V] (cached : Bool) (N : Int) (s s' : Store R V) :
    ∀ phase : ReadPhase R V, Decidable (phase.AdmitsSnapshot cached N s s')
  | .picked hotMin _ => inferInstanceAs (Decidable (_ ∨ ∀ n ∈ s'.snapshots, _ → _ →
      ∀ e ∈ s.hot, _ → s.Fetchable hotMin e))
  | .start | .listed _ _ | .fenced _ _ _ _ | .planned _ | .done _ => isTrue trivial

instance [DecidableEq V] (cfg : PersistConfig R V) (cached : Bool) (N : Int) (s : Store R V)
    (phase : ReadPhase R V) : ∀ o, Decidable (phase.Admits cfg cached N s o)
  | .purge                     => inferInstanceAs (Decidable (phase.AdmitsPurge N s))
  | .snapshot _ _              => inferInstanceAs (Decidable (phase.AdmitsSnapshot cached N s _))
  | .commit _ _ | .persist _ _ => isTrue trivial

instance [DecidableEq V] (s : Store R V) : ∀ phase : ReadPhase R V, Decidable (phase.StaleFree s)
  | .fenced _ (some n) _ _ => inferInstanceAs (Decidable (s.StaleFreeFor n))
  | .start | .picked _ _ | .listed _ _ | .fenced _ none _ _ | .planned _ | .done _ => isTrue trivial

instance [DecidableEq V] (cfg : PersistConfig R V) (cached : Bool) (N : Int) (c : ReadRace R V) :
    ∀ ev, Decidable (ReadAdmits cfg cached N c ev)
  | .op o     => inferInstanceAs (Decidable (KeepsRows cfg c.store o ∧ c.phase.Admits cfg cached N c.store o))
  | .segments => inferInstanceAs (Decidable (c.phase.StaleFree c.store))
  | .pick | .list | .fence | .resolve => isTrue trivial

/-! ## Extending the store -/

/-- `s'` keeps everything a read may have fetched from `s`. -/
structure Store.Extends (s s' : Store R V) : Prop where
  views : ∀ v ∈ s.views, v ∈ s'.views
  snapshots : ∀ n ∈ s.snapshots, n ∈ s'.snapshots
  serves : ∀ seg rows, s.Serves seg rows → s'.Serves seg rows

omit [DecidableEq R] in
theorem Store.Fetchable.mono {s s' : Store R V} (hext : s.Extends s') {hotMin : Int} {e : LogEntry R V}
    (h : s.Fetchable hotMin e) : s'.Fetchable hotMin e := by
  obtain ⟨v, hv, he, hmin⟩ := h
  exact ⟨v, hext.views v hv, he, hmin⟩

omit [DecidableEq R] in
/-- A store with the same cold tier and at least the same snapshots. -/
theorem Store.Extends.of_eq {s s' : Store R V} (hsegs : s'.persistSegments = s.persistSegments)
    (hobjs : s'.objects = s.objects) (hmerged : s'.mergedFiles = s.mergedFiles)
    (hsnaps : ∀ n ∈ s.snapshots, n ∈ s'.snapshots) : s.Extends s' := by
  refine ⟨fun v hv => ?_, hsnaps, fun seg rows h => h.of_eq hsegs hobjs hmerged⟩
  have hviews : s'.views = s.views := by
    unfold Store.views
    rw [hsegs]
    refine List.map_congr_left (fun seg _ => ?_)
    simp only [Store.view, Store.segmentRows, hobjs]
  exact hviews ▸ hv

section Step

variable {cfg : PersistConfig R V} {s s' : Store R V} {H : History R V} {o : Op R V}

/-- **Every operation extends the store**, a Persist if it does not clobber. -/
theorem Inv.extends_of_step (hinv : Inv s H) (hnc : NoClobber cfg s o)
    (h : Penca.step cfg s o = some s') : s.Extends s' := by
  cases o with
  | commit micros rows =>
      rcases hinv.commitTx_cases h with ⟨rfl, -⟩ | ⟨-, -, rfl⟩
      · exact .of_eq rfl rfl rfl (fun n hn => hn)
      · exact .of_eq rfl rfl rfl (fun n hn => hn)
  | persist requestTarget step1Now =>
      cases h
      rcases s.persistLocked_cases cfg requestTarget step1Now with heq | ⟨persistedAt, seq, hgate, heq⟩
      · rw [heq]
        exact .of_eq rfl rfl rfl (fun n hn => hn)
      · have hnc := hnc (hgate ▸ rfl)
        rw [heq]
        refine ⟨fun v hv => ?_, fun n hn => ?_, fun seg rows hs => hs.writePersist hinv.segments.ok hnc⟩
        · rw [(Store.writePersist_views hinv.segments.ok hnc).2]
          exact List.mem_append_left _ hv
        · rw [Store.coldOnly_writePersist.snapshots]
          exact hn
  | snapshot snapshottedAt indexes =>
      cases h
      show s.Extends (s.snapshotLocked cfg snapshottedAt indexes)
      unfold Store.snapshotLocked
      split
      · exact .of_eq rfl rfl rfl (fun n hn => hn)
      · exact .of_eq rfl rfl rfl (fun n hn => List.mem_append_left _ hn)
  | purge =>
      cases h
      show s.Extends s.purgeLocked
      unfold Store.purgeLocked
      split
      · exact .of_eq rfl rfl rfl (fun n hn => hn)
      · exact .of_eq rfl rfl rfl (fun n hn => hn)

/-- Only a Purge removes hot rows, those at or below its fence. -/
theorem mem_hot_of_step (hinv : Inv s H) (h : step cfg s o = some s') {N : Int} {e : LogEntry R V}
    (he : e ∈ s.hot) (hN : e.commitSeqNum ≤ N) : e ∈ s'.hot ∨ (o = .purge ∧ e ∈ s.purgedUpTo N) := by
  cases o with
  | commit micros rows =>
      rcases hinv.commitTx_cases h with ⟨rfl, -⟩ | ⟨-, -, rfl⟩
      · exact Or.inl he
      · exact Or.inl (List.mem_append_left _ he)
  | persist requestTarget step1Now =>
      cases h
      left
      rw [(s.coldOnly_persistLocked cfg requestTarget step1Now).hot]
      exact he
  | snapshot snapshottedAt indexes =>
      cases h
      left
      unfold Store.snapshotLocked
      split
      · exact he
      · exact he
  | purge =>
      cases h
      show e ∈ s.purgeLocked.hot ∨ _
      unfold Store.purgeLocked
      split
      · exact Or.inl he
      · rename_i pu hpu
        by_cases hle : e.commitSeqNum ≤ pu
        · right
          refine ⟨rfl, List.mem_filter.mpr ⟨he, ?_⟩⟩
          simp [hpu, hN, hle]
        · left
          exact List.mem_filter.mpr ⟨he, decide_eq_true (by omega)⟩

end Step

/-! ## The invariant

`visible` is what the read must replay. It is fixed: transactions that commit during the read are past `N`. -/

/-- A snapshot the read may use: below the cutoff, within `N`, and everything its `W_snap` covers can be
    fetched. -/
structure SnapshotReady (N : Int) (visible : List (LogEntry R V)) (s : Store R V) (hotMin : Int)
    (n : TableSnapshot R V) : Prop where
  mem : n ∈ s.snapshots
  below : n.snapshottedAtMicros < hotMin
  within : n.commitSeqNum ≤ N
  covered : ∀ e ∈ visible, e.commitSeqNum ≤ n.commitSeqNum → s.Fetchable hotMin e

/-- What the statements of a complete plan guarantee. -/
structure PlanReady (N : Int) (visible : List (LogEntry R V)) (s : Store R V) (hotMin : Int)
    (snapshot : Option (TableSnapshot R V)) (fence : Int) (hotPresent : Bool)
    (segments : List PersistSegment) (stale : List (LogEntry R V)) : Prop where
  cutoff : 0 < hotMin
  usable : ∀ n ∈ snapshot, n ∈ s.snapshots ∧ n.commitSeqNum ≤ N ∧ n.commitSeqNum ≤ fence
  hot : ∀ e ∈ visible, fence < e.commitSeqNum → hotPresent = true ∧ e ∈ s.hot
  served : ∀ seg ∈ segments, ∃ rows, s.Serves seg rows
  cold : ∀ e ∈ visible, e.commitSeqNum ≤ fence → foldedIn snapshot e = false →
    ∃ seg ∈ segments, e ∈ s.readSegment seg
  stale_iff : ∀ e, e ∈ stale ↔ foldedIn snapshot e = true ∧ ∃ seg ∈ segments, e ∈ s.readSegment seg
  stale_eq : ∀ e ∈ stale, newestEffect stale e.rowUuid =
    newestEffect (visible.filter (foldedIn snapshot)) e.rowUuid

/-- What is known in each phase. -/
def ReadPhaseInv (cached : Bool) (N : Int) (visible : List (LogEntry R V)) (s : Store R V) :
    ReadPhase R V → Prop
  | .start => True
  | .picked hotMin pick =>
      0 < hotMin ∧ (∀ e ∈ visible, e ∉ s.hot → s.Fetchable hotMin e) ∧
        (∀ n ∈ pick, SnapshotReady N visible s hotMin n) ∧
        (¬ (cached = true ∧ pick.isSome = true) → ∀ n ∈ s.snapshots,
          n.snapshottedAtMicros < hotMin → n.commitSeqNum ≤ N → SnapshotReady N visible s hotMin n)
  | .listed hotMin snapshot =>
      0 < hotMin ∧ (∀ e ∈ visible, e ∉ s.hot → s.Fetchable hotMin e) ∧
        ∀ n ∈ snapshot, SnapshotReady N visible s hotMin n
  | .fenced hotMin snapshot fence hotPresent =>
      0 < hotMin ∧ (∀ n ∈ snapshot, SnapshotReady N visible s hotMin n ∧ n.commitSeqNum ≤ fence) ∧
        (∀ e ∈ visible, e.commitSeqNum ≤ fence → s.Fetchable hotMin e) ∧
        ∀ e ∈ visible, fence < e.commitSeqNum → hotPresent = true ∧ e ∈ s.hot
  | .planned plan =>
      (plan = prePersistPlan i64Max ∧ ∀ e ∈ visible, e ∈ s.hot) ∨
        ∃ hotMin snapshot fence hotPresent segments stale,
          plan = planFrom i64Max hotMin snapshot fence hotPresent segments ∧
            PlanReady N visible s hotMin snapshot fence hotPresent segments stale
  | .done rows =>
      (rows.map Prod.fst).Nodup ∧ ∀ r v, (r, v) ∈ rows ↔ newestEffect visible r = some v

/-- The invariant of the machine. -/
structure ReadInv (cached : Bool) (N : Int) (visible : List (LogEntry R V)) (c : ReadRace R V) : Prop where
  inv : Inv c.store c.history
  contents : c.store.SnapshotsReplay c.history.log
  pinned : N < c.store.commitSeqCounter
  replays : c.history.visibleTo (.latestSeq N) = visible
  phase : ReadPhaseInv cached N visible c.store c.phase

section Mono

omit [DecidableEq R]

variable {N : Int} {visible : List (LogEntry R V)} {s s' : Store R V} (hext : s.Extends s')
include hext

theorem SnapshotReady.mono {hotMin : Int} {n : TableSnapshot R V}
    (h : SnapshotReady N visible s hotMin n) : SnapshotReady N visible s' hotMin n :=
  ⟨hext.snapshots n h.mem, h.below, h.within, fun e he hle => (h.covered e he hle).mono hext⟩

theorem Store.Extends.readSegment_eq {seg : PersistSegment} (h : ∃ rows, s.Serves seg rows) :
    s'.readSegment seg = s.readSegment seg := by
  obtain ⟨rows, hs⟩ := h
  rw [Store.readSegment, Store.readSegment, (hext.serves seg rows hs).reads, hs.reads]

end Mono

theorem PlanReady.mono {N : Int} {visible : List (LogEntry R V)} {s s' : Store R V} (hext : s.Extends s')
    {hotMin : Int} {snapshot : Option (TableSnapshot R V)} {fence : Int} {hotPresent : Bool}
    {segments : List PersistSegment} {stale : List (LogEntry R V)}
    (h : PlanReady N visible s hotMin snapshot fence hotPresent segments stale)
    (hhot : ∀ e ∈ visible, fence < e.commitSeqNum → hotPresent = true → e ∈ s.hot → e ∈ s'.hot) :
    PlanReady N visible s' hotMin snapshot fence hotPresent segments stale := by
  have hread : ∀ e, (∃ seg ∈ segments, e ∈ s'.readSegment seg) ↔
      ∃ seg ∈ segments, e ∈ s.readSegment seg := by
    intro e
    refine exists_congr (fun seg => and_congr_right (fun hseg => ?_))
    rw [hext.readSegment_eq (h.served seg hseg)]
  refine ⟨h.cutoff, fun n hn => ?_, fun e he hlt => ?_, fun seg hseg => ?_, fun e he hle hfold => ?_,
    fun e => ?_, h.stale_eq⟩
  · obtain ⟨hmem, hbounds⟩ := h.usable n hn
    exact ⟨hext.snapshots n hmem, hbounds⟩
  · obtain ⟨hpresent, hmem⟩ := h.hot e he hlt
    exact ⟨hpresent, hhot e he hlt hpresent hmem⟩
  · obtain ⟨rows, hs⟩ := h.served seg hseg
    exact ⟨rows, hext.serves seg rows hs⟩
  · exact (hread e).mpr (h.cold e he hle hfold)
  · rw [h.stale_iff, hread]

/-! ### Operations of other callers -/

section Operations

variable {cfg : PersistConfig R V} {cached : Bool} {N : Int} {visible : List (LogEntry R V)}
  {c : ReadRace R V} {s' : Store R V} {o : Op R V}

omit [DecidableEq R] in
/-- A pinned position does not see later commits. -/
theorem History.visibleTo_historyStep {H : History R V} (hN : N < H.txs.length) (o : Op R V) :
    (historyStep H o).visibleTo (.latestSeq N) = H.visibleTo (.latestSeq N) := by
  cases o with
  | commit micros rows =>
      show (H.commit micros rows).visibleTo _ = _
      unfold History.commit
      split
      · rename_i hacc
        have hnil : (H.nextTx micros rows).entries.filter (ReadSnapshot.latestSeq N).sees = [] := by
          rw [List.filter_eq_nil_iff]
          intro e he
          have hseq : e.commitSeqNum = H.txs.length := CommittedTx.commitSeqNum_of_mem he
          simp only [ReadSnapshot.sees, decide_eq_true_eq]
          omega
        rw [History.visibleTo, History.entries_append, List.filter_append, hnil, List.append_nil,
          History.visibleTo]
      · rfl
  | persist requestTarget step1Now => rfl
  | snapshot snapshottedAt indexes => rfl
  | purge => rfl

omit [DecidableEq R] in
theorem History.length_le_historyStep (H : History R V) (o : Op R V) :
    H.txs.length ≤ (historyStep H o).txs.length := by
  cases o with
  | commit micros rows =>
      show _ ≤ (H.commit micros rows).txs.length
      unfold History.commit
      split
      · simp [History.append]
      · exact le_refl _
  | persist requestTarget step1Now => exact le_refl _
  | snapshot snapshottedAt indexes => exact le_refl _
  | purge => exact le_refl _

theorem ReadInv.of_mem_visible (hi : ReadInv cached N visible c) {e : LogEntry R V} (he : e ∈ visible) :
    e ∈ c.history.entries ∧ e.commitSeqNum ≤ N := by
  rw [← hi.replays] at he
  obtain ⟨hent, hsees⟩ := History.mem_visibleTo.mp he
  exact ⟨hent, of_decide_eq_true hsees⟩

/-- What leaves hot before the fence is taken can be fetched. -/
theorem ReadInv.fetchable_of_not_hot (hi : ReadInv cached N visible c)
    (h : step cfg c.store o = some s') (hext : c.store.Extends s') {hotMin : Int}
    (hpurged : ∀ e ∈ visible, e ∉ c.store.hot → c.store.Fetchable hotMin e)
    (hguard : o = .purge → ∀ e ∈ c.store.purgedUpTo N, c.store.Fetchable hotMin e) :
    ∀ e ∈ visible, e ∉ s'.hot → s'.Fetchable hotMin e := by
  intro e he hcold
  apply Store.Fetchable.mono hext
  by_cases hhot : e ∈ c.store.hot
  · rcases mem_hot_of_step hi.inv h hhot (hi.of_mem_visible he).2 with hmem | ⟨hop, hremoved⟩
    · exact absurd hmem hcold
    · exact hguard hop e hremoved
  · exact hpurged e he hhot

/-- **An admitted operation** keeps what the read has established. -/
theorem ReadInv.op (hi : ReadInv cached N visible c) (hnc : NoClobber cfg c.store o)
    (hguard : c.phase.Admits cfg cached N c.store o) (h : step cfg c.store o = some s') :
    ReadPhaseInv cached N visible s' c.phase := by
  have hext := hi.inv.extends_of_step hnc h
  have hphase := hi.phase
  cases hp : c.phase with
  | start => trivial
  | done rows =>
      rw [hp] at hphase
      exact hphase
  | picked hotMin pick =>
      rw [hp] at hphase hguard
      obtain ⟨hcut, hpurged, hpick, hrepick⟩ := hphase
      refine ⟨hcut, ?_, fun n hn => (hpick n hn).mono hext, fun hre n hn hbelow hwithin => ?_⟩
      · refine hi.fetchable_of_not_hot h hext hpurged ?_
        rintro rfl
        exact hguard
      · rcases snapshots_of_step h with hold | ⟨snapshottedAt, indexes, -, -, rfl, -, rfl, -⟩
        · exact (hrepick hre n (hold ▸ hn) hbelow hwithin).mono hext
        · -- A new snapshot: what it covers is hot and fetchable by the guard, or purged before.
          have hnew := Or.resolve_left hguard hre
          refine ⟨hn, hbelow, hwithin, fun e he hle => Store.Fetchable.mono hext ?_⟩
          by_cases hhot : e ∈ c.store.hot
          · exact hnew n hn hbelow hwithin e hhot hle
          · exact hpurged e he hhot
  | listed hotMin snapshot =>
      rw [hp] at hphase hguard
      obtain ⟨hcut, hpurged, hsnap⟩ := hphase
      refine ⟨hcut, ?_, fun n hn => (hsnap n hn).mono hext⟩
      refine hi.fetchable_of_not_hot h hext hpurged ?_
      rintro rfl
      exact hguard
  | fenced hotMin snapshot fence hotPresent =>
      rw [hp] at hphase hguard
      obtain ⟨hcut, hsnap, hcold, hhot⟩ := hphase
      -- What is past the fence is read from hot, so no Purge may take it now.
      refine ⟨hcut, fun n hn => ⟨(hsnap n hn).1.mono hext, (hsnap n hn).2⟩,
        fun e he hle => (hcold e he hle).mono hext, fun e he hlt => ?_⟩
      obtain ⟨hpresent, hmem⟩ := hhot e he hlt
      rcases mem_hot_of_step hi.inv h hmem (hi.of_mem_visible he).2 with hmem | ⟨rfl, hremoved⟩
      · exact ⟨hpresent, hmem⟩
      · have hle : e.commitSeqNum ≤ fence := hguard e hremoved
        omega
  | planned plan =>
      rw [hp] at hphase hguard
      rcases hphase with ⟨rfl, hhot⟩ | ⟨hotMin, snapshot, fence, hotPresent, segments, stale, rfl, hready⟩
      · -- Before the first Persist the plan reads hot alone.
        refine Or.inl ⟨rfl, fun e he => ?_⟩
        rcases mem_hot_of_step hi.inv h (hhot e he) (hi.of_mem_visible he).2 with hmem | ⟨rfl, hremoved⟩
        · exact hmem
        · refine absurd ?_ (hguard e hremoved)
          have hN := (hi.of_mem_visible he).2
          simpa [Store.hotEntries, prePersistPlan, assemblePlan, planHotStorage, hotVisible,
            ReadSnapshot.tightenForHot, ReadSnapshot.sees, hN] using hhot e he
      · refine Or.inr ⟨hotMin, snapshot, fence, hotPresent, segments, stale, rfl, hready.mono hext ?_⟩
        intro e he hlt hpresent hmem
        rcases mem_hot_of_step hi.inv h hmem (hi.of_mem_visible he).2 with hmem | ⟨rfl, hremoved⟩
        · exact hmem
        · refine absurd ?_ (hguard e hremoved)
          have hsees : (ReadSnapshot.latestSeq N).sees e = true := decide_eq_true (hi.of_mem_visible he).2
          show e ∈ c.store.hotEntries (.latestSeq N)
            (planFrom (ReadSnapshot.latestSeq N).planAsOfMicros hotMin snapshot fence hotPresent segments)
          exact Store.mem_hotEntries_planFrom.mpr ⟨hpresent, hmem, hlt, hsees⟩

end Operations

/-! ### Statements of the read -/

section Statements

variable {cached : Bool} {N : Int} {visible : List (LogEntry R V)} {c : ReadRace R V}
  (hi : ReadInv cached N visible c)
include hi

/-- Below the persist watermark everything can be fetched with the cutoff past it. -/
theorem ReadInv.fetchable_of_persisted {p : Int} (hp : c.store.persistWatermark = some p)
    {e : LogEntry R V} (he : e ∈ visible) (hle : e.commitMicros ≤ p) : c.store.Fetchable (p + 1) e := by
  obtain ⟨v, hv, hev⟩ := (hi.inv.stored_iff e (hi.of_mem_visible he).1).mp ⟨p, hp, hle⟩
  have hmin := ((hi.inv.segments.exact_of_mem hv).micros e hev).1
  exact ⟨v, hv, hev, by omega⟩

theorem ReadInv.snapshotReady {p : Int} (hp : c.store.persistWatermark = some p) {n : TableSnapshot R V}
    (hn : n ∈ c.store.snapshots) (hbelow : n.snapshottedAtMicros < p + 1) (hwithin : n.commitSeqNum ≤ N) :
    SnapshotReady N visible c.store (p + 1) n := by
  refine ⟨hn, hbelow, hwithin, fun e he hle => hi.fetchable_of_persisted hp he ?_⟩
  exact hi.inv.commitMicros_le_of_snapshot hp hn (hi.of_mem_visible he).1 hle

theorem ReadInv.pick :
    ReadPhaseInv cached N visible c.store
      (if (c.store.hotMinAndSnapshotPick i64Max (some N)).1 = 0 then .planned (prePersistPlan i64Max)
        else .picked (c.store.hotMinAndSnapshotPick i64Max (some N)).1
          (c.store.hotMinAndSnapshotPick i64Max (some N)).2) := by
  cases hp : c.store.persistWatermark with
  | none =>
      have hzero : (c.store.hotMinAndSnapshotPick i64Max (some N)).1 = 0 := by
        simp [Store.hotMinAndSnapshotPick, Store.hotMin, hp]
      rw [if_pos hzero]
      -- Nothing is persisted, so nothing has left hot.
      refine Or.inl ⟨rfl, fun e he => ?_⟩
      by_contra hcold
      obtain ⟨p, hsome, -⟩ := hi.inv.persisted_of_not_mem_hot (hi.of_mem_visible he).1 hcold
      simp [hp] at hsome
  | some p =>
      have hrange := hi.inv.watermark_inRange hp
      have hmin : (c.store.hotMinAndSnapshotPick i64Max (some N)).1 = p + 1 := by
        simp [Store.hotMinAndSnapshotPick, Store.hotMin, hp]
      rw [hmin, if_neg (by omega)]
      refine ⟨by omega, fun e he hcold => ?_, fun n hn => ?_, fun _ n hn => hi.snapshotReady hp hn⟩
      · obtain ⟨q, hq, hle⟩ := hi.inv.persisted_of_not_mem_hot (hi.of_mem_visible he).1 hcold
        obtain rfl := Option.some.inj (hq.symm.trans hp)
        exact hi.fetchable_of_persisted hp he hle
      · have hpick : c.store.pickSnapshotAsOf (min i64Max p) (some N) = some n := by
          simpa [Store.hotMinAndSnapshotPick, hp] using hn
        obtain ⟨hmem, hasOf, hseq⟩ := hi.inv.branch.of_pickSnapshotAsOf hpick
        exact hi.snapshotReady hp hmem (by omega) (hseq N rfl)

theorem ReadInv.list {hotMin : Int} {pick : Option (TableSnapshot R V)}
    (hp : c.phase = .picked hotMin pick) :
    ReadPhaseInv cached N visible c.store (.listed hotMin (listSnapshotSegments cached pick
      (c.store.pickSnapshotAsOf (computeSnapshotPickerAsOf i64Max hotMin) (some N)))) := by
  have hphase := hi.phase
  rw [hp] at hphase
  obtain ⟨hcut, hpurged, hpick, hrepick⟩ := hphase
  refine ⟨hcut, hpurged, fun n hn => ?_⟩
  unfold listSnapshotSegments at hn
  split at hn
  · -- The cache answered for the snapshot picked first.
    exact hpick n hn
  · rename_i hre
    obtain ⟨hmem, hasOf, hseq⟩ := hi.inv.branch.of_pickSnapshotAsOf (Option.mem_def.mp hn)
    unfold computeSnapshotPickerAsOf at hasOf
    exact hrepick (by simpa using hre) n hmem (by omega) (hseq N rfl)

theorem ReadInv.fence {hotMin : Int} {snapshot : Option (TableSnapshot R V)}
    (hp : c.phase = .listed hotMin snapshot) :
    ReadPhaseInv cached N visible c.store (.fenced hotMin snapshot
      (c.store.phaseOneFenceAndExistence (wSnapOf snapshot)).1
      (c.store.phaseOneFenceAndExistence (wSnapOf snapshot)).2) := by
  have hphase := hi.phase
  rw [hp] at hphase
  obtain ⟨hcut, hpurged, hsnap⟩ := hphase
  obtain ⟨hpurges, hwsnap, hfence⟩ := c.store.phaseOneFence_spec (wSnapOf snapshot)
  refine ⟨hcut, fun n hn => ⟨hsnap n hn, ?_⟩, fun e he hle => ?_, fun e he hlt => ?_⟩
  · have hw : wSnapOf snapshot = n.commitSeqNum := by
      rw [Option.mem_def.mp hn]
      rfl
    exact hw ▸ hwsnap
  · rcases hfence with hmem | heq
    · -- The fence is a purge fence: the entry left hot.
      refine hpurged e he (fun hhot => ?_)
      have := (hi.inv.mem_hot.mp hhot).2 _ hmem
      omega
    · rw [heq] at hle
      cases hn : snapshot with
      | none =>
          have hpos := History.commitSeqNum_nonneg (hi.of_mem_visible he).1
          simp only [wSnapOf, hn, Option.map_none, Option.getD_none, snapshotSeqGenesis] at hle
          omega
      | some n => exact (hsnap n hn).covered e he (by simpa [wSnapOf, hn] using hle)
  · exact hi.inv.mem_hot_of_fence (hi.of_mem_visible he).1
      (fun pu hpu => lt_of_le_of_lt (hpurges pu hpu) hlt)

/-- What a usable snapshot folded is the visible part up to its position. -/
theorem ReadInv.filter_folded {n : TableSnapshot R V} (hn : n ∈ c.store.snapshots)
    (hwithin : n.commitSeqNum ≤ N) :
    visible.filter (foldedIn (some n)) = c.history.upTo n.snapshottedAtMicros := by
  rw [← hi.replays, History.visibleTo, History.upTo, List.filter_filter]
  refine List.filter_congr (fun e he => ?_)
  by_cases hle : e.commitMicros ≤ n.snapshottedAtMicros
  · have hreach := (hi.inv.snapshots n hn).reaches e he hle
    have hN : e.commitSeqNum ≤ N := by omega
    simp [foldedIn, ReadSnapshot.sees, hle, hN]
  · simp [foldedIn, hle]

/-- The leftovers a plan fetches below its snapshot are those of the snapshot. -/
theorem ReadInv.exists_stale {hotMin : Int} {snapshot : Option (TableSnapshot R V)}
    (hsnap : ∀ n ∈ snapshot, SnapshotReady N visible c.store hotMin n)
    (hrange : ∀ n, snapshot = some n → n.snapshottedAtMicros < i64Max)
    (hfree : ∀ n ∈ snapshot, c.store.StaleFreeFor n) :
    ∃ stale : List (LogEntry R V),
      (∀ e, e ∈ stale ↔ foldedIn snapshot e = true ∧
        ∃ seg ∈ c.store.planSegments i64Max hotMin (some N) snapshot, e ∈ c.store.readSegment seg) ∧
      ∀ e ∈ stale, newestEffect stale e.rowUuid =
        newestEffect (visible.filter (foldedIn snapshot)) e.rowUuid := by
  cases hn : snapshot with
  | none => exact ⟨[], by simp [foldedIn], by simp⟩
  | some n =>
      have hready := hsnap n hn
      have hasOf : n.snapshottedAtMicros ≤ (ReadSnapshot.latestSeq N).planAsOfMicros := (hrange n hn).le
      have hseq : ∀ seq, (ReadSnapshot.latestSeq N).planCommitSeqUpper = some seq → n.commitSeqNum ≤ seq := by
        intro seq hseq
        exact Option.some.inj hseq ▸ hready.within
      refine ⟨c.store.staleEntries n, fun e => ?_, fun e he => ?_⟩
      · exact hi.inv.mem_staleEntries_iff hready.mem hasOf hseq hready.below
      · rw [hi.filter_folded hready.mem hready.within, hfree n hn e he,
          hi.inv.newestEffect_coveredEntries hready.mem]

theorem ReadInv.segments {hotMin : Int} {snapshot : Option (TableSnapshot R V)} {fence : Int}
    {hotPresent : Bool} (hp : c.phase = .fenced hotMin snapshot fence hotPresent)
    (hfree : ∀ n ∈ snapshot, c.store.StaleFreeFor n) :
    ReadPhaseInv cached N visible c.store (.planned (planFrom i64Max hotMin snapshot fence hotPresent
      (c.store.planSegments i64Max hotMin (some N) snapshot))) := by
  have hphase := hi.phase
  rw [hp] at hphase
  obtain ⟨hcut, hsnap, hcold, hhot⟩ := hphase
  have hrange : ∀ n, snapshot = some n → n.snapshottedAtMicros < i64Max :=
    fun n hn => hi.inv.snapshottedAt_lt (hsnap n hn).1.mem
  obtain ⟨stale, hstale, heq⟩ := hi.exists_stale (fun n hn => (hsnap n hn).1) hrange hfree
  refine Or.inr ⟨hotMin, snapshot, fence, hotPresent, _, stale, rfl, ?_⟩
  refine ⟨hcut, fun n hn => ?_, hhot, fun seg hseg => ?_, fun e he hle hfold => ?_, hstale, heq⟩
  · exact ⟨(hsnap n hn).1.mem, (hsnap n hn).1.within, (hsnap n hn).2⟩
  · have hmem := ((Store.mem_segmentsForWindow_iff hi.inv.segments.ok).mp hseg).1
    exact ⟨_, hi.inv.segments.serves hmem⟩
  · -- The segment that makes the entry fetchable overlaps the window past the snapshot.
    obtain ⟨hent, hN⟩ := hi.of_mem_visible he
    obtain ⟨v, hv, hev, hmin⟩ := hcold e he hle
    have hsees : (ReadSnapshot.latestSeq N).sees e = true := decide_eq_true hN
    have hexact := hi.inv.segments.exact_of_mem hv
    refine (hi.inv.branch.exists_planSegments_iff hrange (by unfold i64Min; omega) hsees).mpr
      ⟨v, hv, fun n hn => ?_, hmin, hexact.read_eq.symm ▸ hev⟩
    have hmax := (hexact.micros e hev).2
    have hgt : n.snapshottedAtMicros < e.commitMicros := by simpa [foldedIn, hn] using hfold
    omega

theorem ReadInv.planCovers {hotMin : Int} {snapshot : Option (TableSnapshot R V)} {fence : Int}
    {hotPresent : Bool} {segments : List PersistSegment} {stale : List (LogEntry R V)}
    (h : PlanReady N visible c.store hotMin snapshot fence hotPresent segments stale) :
    PlanCovers c.history (.latestSeq N) c.store snapshot fence hotPresent segments := by
  have hvisible : ∀ e ∈ c.history.entries, (ReadSnapshot.latestSeq N).sees e = true → e ∈ visible := by
    intro e he hsees
    rw [← hi.replays]
    exact History.mem_visibleTo.mpr ⟨he, hsees⟩
  refine ⟨fun e he => (hi.inv.mem_hot.mp he).1, fun seg hseg e he => ?_, fun e he hfold => ?_,
    fun n hn => (hi.contents n (h.usable n hn).1).nodup,
    fun n hn => (hi.contents n (h.usable n hn).1).replay,
    fun e he hsees => h.hot e (hvisible e he hsees), fun e he hsees => h.cold e (hvisible e he hsees)⟩
  · obtain ⟨rows, hserves⟩ := h.served seg hseg
    obtain ⟨seg', hseg', -, -, hrows⟩ := hserves.current
    have hmem : e ∈ c.store.segmentRows seg := (List.mem_filter.mp he).1
    rw [hserves.reads, ← hrows] at hmem
    exact (hi.inv.stored (c.store.view seg') (List.mem_map_of_mem hseg') e hmem).1
  · cases hn : snapshot with
    | none => simp [foldedIn, hn] at hfold
    | some n =>
        obtain ⟨hmem, hwithin, hfence⟩ := h.usable n hn
        have hle : e.commitMicros ≤ n.snapshottedAtMicros := by simpa [foldedIn, hn] using hfold
        have hreach := (hi.inv.snapshots n hmem).reaches e he hle
        exact ⟨by omega, decide_eq_true (by omega)⟩

theorem ReadInv.resolve {plan : Plan R V} (hp : c.phase = .planned plan) :
    ReadPhaseInv cached N visible c.store (.done (c.store.readPlan (.latestSeq N) plan)) := by
  have hphase := hi.phase
  rw [hp] at hphase
  rcases hphase with ⟨rfl, hhot⟩ | ⟨hotMin, snapshot, fence, hotPresent, segments, stale, rfl, hready⟩
  · rw [← hi.replays] at hhot ⊢
    exact hi.inv.mem_readPlan_prePersist hhot
  · have hc := hi.planCovers hready
    have h0 : hotMin ≠ 0 := by
      have := hready.cutoff
      omega
    refine ⟨hc.nodup_readPlan h0, fun r v => ?_⟩
    have heq := hready.stale_eq
    rw [← hi.replays] at heq ⊢
    exact hc.mem_readPlan_iff h0 stale hready.stale_iff heq

end Statements

/-! ## Runs -/

section Runs

variable {cfg : PersistConfig R V} {cached : Bool} {N : Int} {visible : List (LogEntry R V)}
  {c c' : ReadRace R V}

/-- **Step.** Every admitted event keeps the invariant. -/
theorem ReadInv.step (hi : ReadInv cached N visible c) {ev : ReadEvent R V}
    (hguard : ReadAdmits cfg cached N c ev) (h : readStep cfg cached N c ev = some c') :
    ReadInv cached N visible c' := by
  cases ev with
  | op o =>
      obtain ⟨s', hs, rfl⟩ := Option.map_eq_some_iff.mp h
      have hN : N < c.history.txs.length := by
        rw [← hi.inv.counter]
        exact hi.pinned
      obtain ⟨⟨hnc, hrewrites⟩, hadmits⟩ := hguard
      refine ⟨hi.inv.step hnc hs, hi.inv.replays_step hi.contents hrewrites hs, ?_, ?_, hi.op hnc hadmits hs⟩
      · have hcounter : s'.commitSeqCounter = (historyStep c.history o).txs.length :=
          (hi.inv.step hnc hs).counter
        rw [hcounter]
        exact lt_of_lt_of_le hN (by exact_mod_cast History.length_le_historyStep c.history o)
      · exact (History.visibleTo_historyStep hN o).trans hi.replays
  | pick =>
      simp only [readStep] at h
      split at h
      · obtain rfl := Option.some.inj h
        exact ⟨hi.inv, hi.contents, hi.pinned, hi.replays, hi.pick⟩
      · simp at h
  | list =>
      simp only [readStep] at h
      split at h
      · rename_i hp
        obtain rfl := Option.some.inj h
        exact ⟨hi.inv, hi.contents, hi.pinned, hi.replays, hi.list hp⟩
      · simp at h
  | fence =>
      simp only [readStep] at h
      split at h
      · rename_i hp
        obtain rfl := Option.some.inj h
        exact ⟨hi.inv, hi.contents, hi.pinned, hi.replays, hi.fence hp⟩
      · simp at h
  | segments =>
      simp only [readStep] at h
      split at h
      · rename_i hotMin snapshot fence hotPresent hp
        obtain rfl := Option.some.inj h
        refine ⟨hi.inv, hi.contents, hi.pinned, hi.replays, hi.segments hp ?_⟩
        rintro n hn
        obtain rfl := Option.mem_def.mp hn
        simp only [ReadAdmits, hp] at hguard
        exact hguard
      · simp at h
  | resolve =>
      simp only [readStep] at h
      split at h
      · rename_i hp
        obtain rfl := Option.some.inj h
        exact ⟨hi.inv, hi.contents, hi.pinned, hi.replays, hi.resolve hp⟩
      · simp at h

/-- **A `LatestSeq` read among lifecycle operations.** From every state the lifecycle reaches, in every
    interleaving whose operations the read admits, a completed read pinned at a committed sequence number `N`
    returns the replay of the transactions up to `N`, no row twice. -/
theorem latestSeq_readsReplay (cfg : PersistConfig R V) (cached : Bool) (ops : List (Op R V))
    (s₀ : Store R V) (hmeets : Runs.Meets (Penca.step cfg) (KeepsRows cfg) Store.init ops)
    (hrun : Runs.run (Penca.step cfg) Store.init ops = some s₀)
    (N : Int) (hpinned : N < s₀.commitSeqCounter) (events : List (ReadEvent R V)) (c : ReadRace R V)
    (rows : List (R × V))
    (hadmits : Runs.Meets (readStep cfg cached N) (ReadAdmits cfg cached N) (.begin s₀ (historyOf ops)) events)
    (hread : Runs.run (readStep cfg cached N) (.begin s₀ (historyOf ops)) events = some c)
    (hdone : c.phase = .done rows) :
    (rows.map Prod.fst).Nodup ∧
      ∀ r v, (r, v) ∈ rows ↔ replayLog (c.history.visibleTo (.latestSeq N)) r = some v := by
  have hbegin : ReadInv cached N ((historyOf ops).visibleTo (.latestSeq N))
      (.begin s₀ (historyOf ops)) := by
    obtain ⟨hinv, hreplay⟩ := replays_run hmeets hrun
    exact ⟨hinv, hreplay, hpinned, rfl, trivial⟩
  have hi : ReadInv cached N ((historyOf ops).visibleTo (.latestSeq N)) c :=
    Runs.invariant_of_step (fun _ _ _ hi hguard h => hi.step hguard h) hbegin hadmits hread
  have hphase := hi.phase
  rw [hdone] at hphase
  refine ⟨hphase.1, fun r v => ?_⟩
  rw [replayLog, replay_apply (c.history.separated_visibleTo _), hi.replays]
  exact hphase.2 r v

end Runs

/-- Row 1 is persisted, folded and purged; row 2 is hot. -/
def secondRowHot : List (Op Nat Nat) :=
  [.commit 10 (.single 1 (.upsert 5) 0), .persist none 15, .snapshot none [], .purge,
    .commit 20 (.single 2 (.upsert 6) 0)]

/-- Row 2 goes through Persist, Snapshot and Purge between the first and the third statement of the read. -/
def cycleInsideReadRun : List (ReadEvent Nat Nat) :=
  [.pick, .op (.persist none 25), .op (.snapshot none []), .op .purge, .list, .fence, .segments, .resolve]

/-- The cutoff 11 of the first statement hides row 2 from the cold fetch, the fence of the third hides it
    from hot: the read returns row 1 only. -/
theorem cycleInsideReadRun_misses_row :
    ∃ s₀ c, Runs.run (step oneByteRows) Store.init secondRowHot = some s₀ ∧
      Runs.run (readStep oneByteRows true 1) (.begin s₀ (historyOf secondRowHot)) cycleInsideReadRun = some c ∧
      c.phase = .done [(1, 5)] ∧ replayLog (c.history.visibleTo (.latestSeq 1)) 2 = some 6 := by
  have hend : ((Runs.run (step oneByteRows) Store.init secondRowHot).bind (fun s₀ =>
      (Runs.run (readStep oneByteRows true 1) (.begin s₀ (historyOf secondRowHot)) cycleInsideReadRun).map
        (fun c => decide (c.phase = .done [(1, 5)] ∧
          replayLog (c.history.visibleTo (.latestSeq 1)) 2 = some 6)))) = some true := by decide +kernel
  obtain ⟨s₀, hrun, hend⟩ := Option.bind_eq_some_iff.mp hend
  obtain ⟨c, hread, hend⟩ := Option.map_eq_some_iff.mp hend
  exact ⟨s₀, c, hrun, hread, of_decide_eq_true hend⟩

/-- The same operations around the read, without a Purge after its first statement. -/
def cycleAroundReadRun : List (ReadEvent Nat Nat) :=
  [.pick, .op (.persist none 25), .op (.snapshot none []), .list, .fence, .segments,
    .op (.commit 30 (.single 1 .delete 0)), .resolve]

/-- Row 2 is read from hot; the later delete of row 1 is past the pinned position. -/
theorem cycleAroundReadRun_readsReplay :
    ∃ s₀ c rows, Runs.run (step oneByteRows) Store.init secondRowHot = some s₀ ∧
      Runs.run (readStep oneByteRows true 1) (.begin s₀ (historyOf secondRowHot)) cycleAroundReadRun = some c ∧
      c.phase = .done rows ∧ rows = [(2, 6), (1, 5)] ∧
      ∀ r v, (r, v) ∈ rows ↔ replayLog (c.history.visibleTo (.latestSeq 1)) r = some v := by
  have hend : ((Runs.run (step oneByteRows) Store.init secondRowHot).bind (fun s₀ =>
      (Runs.run (readStep oneByteRows true 1) (.begin s₀ (historyOf secondRowHot)) cycleAroundReadRun).map
        (fun c => decide (1 < s₀.commitSeqCounter ∧ c.phase = .done [(2, 6), (1, 5)] ∧
          Runs.Meets (readStep oneByteRows true 1) (ReadAdmits oneByteRows true 1)
            (.begin s₀ (historyOf secondRowHot)) cycleAroundReadRun)))) = some true := by decide +kernel
  obtain ⟨s₀, hrun, hend⟩ := Option.bind_eq_some_iff.mp hend
  obtain ⟨c, hread, hend⟩ := Option.map_eq_some_iff.mp hend
  obtain ⟨hpinned, hdone, hadmits⟩ := of_decide_eq_true hend
  exact ⟨s₀, c, _, hrun, hread, hdone, rfl, (latestSeq_readsReplay oneByteRows true secondRowHot s₀
    (by decide +kernel) hrun 1 hpinned cycleAroundReadRun c _ hadmits hread hdone).2⟩

end Penca
