import Penca.Lifecycle.Invariant

/-!
# `Lifecycle.PurgeSafety` — what Purge removes from hot is not lost

Purge trusts `W_snap`, a maximum of whole-segment `commit_seq_num` bounds, while a snapshot folds a
`commit_micros` window that may cut a segment in the middle. A `Traced` run records which entries each
snapshot of the run folded. Along every run whose Persists do not clobber these are the entries of the history
at or below the newest snapshot (`FoldedInv`), so an entry that Purge removes is folded, or the next snapshot
window finds it in a segment. What is folded is in the snapshot's rows if each Snapshot rewrites the partitions of
the rows it replaces (`purge_loses_nothing`).
-/

namespace Penca

open Newest

variable {R V : Type} [DecidableEq R]

/-! ## Traced runs -/

/-- The storage state and the entries the snapshots of the run have folded. -/
structure Traced (R V : Type) where
  store : Store R V
  folded : List (LogEntry R V)

def Traced.init : Traced R V := ⟨Store.init, []⟩

/-- The entries an operation folds: the delta of the snapshot it commits. -/
def Store.foldedBy (s : Store R V) : Op R V → List (LogEntry R V)
  | .snapshot snapshottedAt _ =>
      match s.computeSnapshotWindow snapshottedAt with
      | none               => []
      | some (upper, prev) =>
          s.snapshotDelta (prev.map (fun n => satSucc n.snapshottedAtMicros)) (satSucc upper)
  | _ => []

/-- `step`, with the trace. -/
def tracedStep (cfg : PersistConfig R V) (c : Traced R V) (op : Op R V) : Option (Traced R V) :=
  (step cfg c.store op).map (fun s => ⟨s, c.folded ++ c.store.foldedBy op⟩)

/-- An entry that may leave the hot tier: it is folded, or it lies past the newest snapshot in a committed
    segment that reaches past it, where the next snapshot window `[snapshotted_at + 1, ..)` reads it. -/
def Traced.Safe (c : Traced R V) (e : LogEntry R V) : Prop :=
  e ∈ c.folded ∨
    ∃ n ∈ pickSnapshot c.store.snapshots, ∃ seg ∈ c.store.persistSegments,
      seg.committed = true ∧ n.snapshottedAtMicros < seg.maxTxCommitMicros ∧
        satSucc n.snapshottedAtMicros ≤ e.commitMicros ∧ e ∈ c.store.readSegment seg

instance [DecidableEq V] (c : Traced R V) (e : LogEntry R V) : Decidable (c.Safe e) :=
  inferInstanceAs (Decidable (_ ∨ ∃ n ∈ pickSnapshot c.store.snapshots,
    ∃ seg ∈ c.store.persistSegments, _ ∧ _ ∧ _ ∧ _))

/-! ## The invariant -/

/-- The folded entries are those at or below some snapshot. -/
structure FoldedInv (c : Traced R V) (H : History R V) : Prop where
  inv : Inv c.store H
  folded : ∀ e, e ∈ c.folded ↔ e ∈ H.entries ∧ ∃ n ∈ c.store.snapshots, e.commitMicros ≤ n.snapshottedAtMicros

section Steps

variable {cfg : PersistConfig R V} {c : Traced R V} {H : History R V} (hf : FoldedInv c H)
include hf

omit [DecidableEq R] in
/-- Under the same history and snapshots nothing changes in the trace. -/
theorem FoldedInv.of_snapshots_eq {s : Store R V} (hinv : Inv s H) (hs : s.snapshots = c.store.snapshots) :
    FoldedInv ⟨s, c.folded ++ []⟩ H := by
  refine ⟨hinv, fun e => ?_⟩
  rw [List.append_nil, hf.folded, hs]

omit [DecidableEq R] in
theorem FoldedInv.commitTx {micros : Int} {rows : TxWrites R V} {s : Store R V}
    (h : c.store.commitTx micros rows = some s) :
    FoldedInv ⟨s, c.folded ++ []⟩ (H.commit micros rows) := by
  have hinv := hf.inv.commitTx h
  rcases hf.inv.commitTx_cases h with ⟨rfl, hH⟩ | ⟨hacc, hH, rfl⟩
  · rw [hH] at hinv ⊢
    exact hf.of_snapshots_eq hinv rfl
  refine ⟨hinv, fun e => ?_⟩
  rw [List.append_nil, hf.folded, hH, History.entries_append, List.mem_append]
  constructor
  · rintro ⟨he, hn⟩
    exact ⟨Or.inl he, hn⟩
  · rintro ⟨he | he, n, hn, hle⟩
    · exact ⟨he, n, hn, hle⟩
    · obtain ⟨p, hp, hnp, -⟩ := (hf.inv.snapshots n hn).covered
      have := hf.inv.watermark_lt_of_accepts hacc hp he
      omega

/-- A snapshot folds what lies between the one it builds on and its own position. -/
theorem FoldedInv.snapshotLocked (snapshottedAt : Option Int) (indexes : List SnapshotIndexDef) :
    FoldedInv ⟨c.store.snapshotLocked cfg snapshottedAt indexes,
      c.folded ++ c.store.foldedBy (.snapshot snapshottedAt indexes)⟩ H := by
  have hinv : Inv (c.store.snapshotLocked cfg snapshottedAt indexes) H := hf.inv.snapshotLocked snapshottedAt indexes
  cases hwindow : c.store.computeSnapshotWindow snapshottedAt with
  | none =>
      simp only [Store.snapshotLocked, Store.foldedBy, hwindow] at hinv ⊢
      exact hf.of_snapshots_eq hinv rfl
  | some window =>
      obtain ⟨upper, prev⟩ := window
      obtain ⟨hprev, hupper, hlt⟩ := Store.computeSnapshotWindow_eq_some hwindow
      simp only [Store.snapshotLocked, Store.foldedBy, hwindow] at hinv ⊢
      refine ⟨hinv, fun e => ?_⟩
      rw [List.mem_append, hf.folded, hf.inv.branch.mem_snapshotDelta hprev hupper]
      constructor
      · rintro (⟨he, n, hn, hle⟩ | ⟨he, -, hle⟩)
        · exact ⟨he, n, List.mem_append_left _ hn, hle⟩
        · exact ⟨he, _, List.mem_append_right _ (List.mem_singleton.mpr rfl), hle⟩
      · rintro ⟨he, n, hn, hle⟩
        -- Below the previous snapshot the entry was folded before, above it the delta has it.
        by_cases hlow : ∀ m, prev = some m → m.snapshottedAtMicros < e.commitMicros
        · refine Or.inr ⟨he, hlow, ?_⟩
          rcases List.mem_append.mp hn with hn | hn
          · cases hp : prev with
            | none =>
                rw [hp, eq_comm, pickSnapshot, newest_eq_none] at hprev
                simp [hprev] at hn
            | some m =>
                have hm := (hf.inv.branch.prev_spec hprev hp).2.2 n hn
                have := hlow m hp
                omega
          · rw [List.mem_singleton.mp hn] at hle
            exact hle
        · push Not at hlow
          obtain ⟨m, hm, hem⟩ := hlow
          exact Or.inl ⟨he, m, (hf.inv.branch.prev_spec hprev hm).1, hem⟩

theorem FoldedInv.step {c' : Traced R V} {op : Op R V} (hnc : NoClobber cfg c.store op)
    (h : tracedStep cfg c op = some c') : FoldedInv c' (historyStep H op) := by
  obtain ⟨s, hs, rfl⟩ := Option.map_eq_some_iff.mp h
  cases op with
  | commit micros rows => exact hf.commitTx hs
  | persist requestTarget step1Now =>
      cases hs
      exact hf.of_snapshots_eq (hf.inv.persistLocked hnc)
        (c.store.coldOnly_persistLocked cfg requestTarget step1Now).snapshots
  | snapshot snapshottedAt indexes =>
      cases hs
      exact hf.snapshotLocked snapshottedAt indexes
  | purge =>
      cases hs
      refine hf.of_snapshots_eq hf.inv.purgeLocked ?_
      unfold Store.purgeLocked
      split <;> rfl

/-! ## Safety of Purge -/

/-- The newest snapshot holds the replay of the folded entries. -/
theorem FoldedInv.newest_replay (hreplay : c.store.SnapshotsReplay H.log) {n : TableSnapshot R V}
    (hn : pickSnapshot c.store.snapshots = some n) (r : R) (v : V) : (r, v) ∈ n.rows ↔ newestEffect c.folded r = some v := by
  obtain ⟨hmem, hmax⟩ := hf.inv.branch.of_pickSnapshot (fun m hm => hm) hn
  have hfolded : ∀ e, e ∈ c.folded ↔ e ∈ H.log.upTo n.snapshottedAtMicros := by
    intro e
    rw [hf.folded, BranchLog.mem_upTo]
    refine and_congr_right (fun _ => ⟨?_, fun hle => ⟨n, hmem, hle⟩⟩)
    rintro ⟨m, hm, hle⟩
    exact hle.trans (hmax m hm).1
  rw [(hreplay n hmem).replay, newestEffect, newestEffect,
    outcome_congr (H.log.separated_upTo n.snapshottedAtMicros) (fun e _ => hfolded e)]

omit [DecidableEq R] in
/-- What some `W_snap` covers is safe: it is persisted, so a segment past the newest snapshot holds it unless
    the snapshot folded it. -/
theorem FoldedInv.safe_of_covered {n : TableSnapshot R V} (hn : n ∈ c.store.snapshots)
    {e : LogEntry R V} (he : e ∈ H.entries) (hle : e.commitSeqNum ≤ n.commitSeqNum) : c.Safe e := by
  obtain ⟨p, hp, -, hcov⟩ := (hf.inv.snapshots n hn).covered
  obtain ⟨v, hv, hev⟩ := (hf.inv.stored_iff e he).mp ⟨p, hp, hcov e he hle⟩
  obtain ⟨m, hm⟩ : ∃ m, pickSnapshot c.store.snapshots = some m := by
    rw [← Option.isSome_iff_exists, Option.isSome_iff_ne_none, pickSnapshot, Ne, newest_eq_none]
    exact List.ne_nil_of_mem hn
  obtain ⟨hmem, -⟩ := hf.inv.branch.of_pickSnapshot (fun m hm => hm) hm
  by_cases hfold : e.commitMicros ≤ m.snapshottedAtMicros
  · exact Or.inl ((hf.folded e).mpr ⟨he, m, hmem, hfold⟩)
  · obtain ⟨seg, hseg, rfl⟩ := List.mem_map.mp hv
    have hmax : e.commitMicros ≤ seg.maxTxCommitMicros :=
      ((hf.inv.segments.exact_of_mem hv).micros e hev).2
    refine Or.inr ⟨m, hm, seg, hseg, hf.inv.segments.committed seg hseg, by omega, ?_, ?_⟩
    · exact (min_le_left _ _).trans (by omega)
    · rw [Store.readSegment_eq hf.inv.segments hseg]
      exact hev

omit [DecidableEq R] in
theorem FoldedInv.safe_of_purged {e : LogEntry R V} (he : e ∈ c.store.hot)
    (hpurged : e ∉ c.store.purgeLocked.hot) : c.Safe e := by
  unfold Store.purgeLocked at hpurged
  split at hpurged
  · exact absurd he hpurged
  · rename_i pu hpu
    obtain ⟨n, hn, rfl⟩ := Store.exists_snapshot_of_purge hpu
    have hle : ¬ n.commitSeqNum < e.commitSeqNum :=
      fun hlt => hpurged (List.mem_filter.mpr ⟨he, decide_eq_true hlt⟩)
    exact hf.safe_of_covered hn (hf.inv.mem_hot.mp he).1 (by omega)

theorem FoldedInv.hot_or_safe {e : LogEntry R V} (he : e ∈ H.entries) : e ∈ c.store.hot ∨ c.Safe e := by
  by_cases hhot : e ∈ c.store.hot
  · exact Or.inl hhot
  · rw [hf.inv.mem_hot] at hhot
    push Not at hhot
    obtain ⟨pu, hpu, hle⟩ := hhot he
    obtain ⟨n, hn, rfl⟩ := hf.inv.fenced pu hpu
    exact Or.inr (hf.safe_of_covered hn he hle)

end Steps

omit [DecidableEq R] in
theorem FoldedInv.init : FoldedInv (Traced.init : Traced R V) History.empty := by
  refine ⟨Inv.init, fun e => ?_⟩
  simp [Traced.init, Store.init]

/-- **Purge loses nothing.** In every state of a run whose Persists do not clobber and whose Snapshots rewrite the
    partitions of the rows they replace, each hot entry that Purge would remove is safe, no committed entry is
    anywhere else than hot or safe, and the newest snapshot holds the replay of what was folded. -/
theorem purge_loses_nothing (cfg : PersistConfig R V) (ops : List (Op R V)) (c : Traced R V)
    (hmeets : Runs.Meets (tracedStep cfg) (fun c op => KeepsRows cfg c.store op) Traced.init ops)
    (hrun : Runs.run (tracedStep cfg) Traced.init ops = some c) :
    (∀ e ∈ c.store.hot, e ∉ c.store.purgeLocked.hot → c.Safe e) ∧
      (∀ e ∈ (historyOf ops).entries, e ∈ c.store.hot ∨ c.Safe e) ∧
      ∀ n, pickSnapshot c.store.snapshots = some n →
        ∀ r v, (r, v) ∈ n.rows ↔ newestEffect c.folded r = some v := by
  obtain ⟨hf, hreplay⟩ : FoldedInv c (historyOf ops) ∧ c.store.SnapshotsReplay (historyOf ops).log := by
    refine Runs.simulation_of_step (R := fun c H => FoldedInv c H ∧ c.store.SnapshotsReplay H.log) ?_
      ⟨FoldedInv.init, .init _⟩ hmeets hrun
    intro c H op c' hf hok h
    refine ⟨hf.1.step hok.1 h, ?_⟩
    obtain ⟨s, hs, rfl⟩ := Option.map_eq_some_iff.mp h
    exact hf.1.inv.replays_step hf.2 hok.2 hs
  exact ⟨fun e => hf.safe_of_purged, fun e => hf.hot_or_safe, fun n hn => hf.newest_replay hreplay hn⟩

/-- Two Persists with one explicit target: the second rewrites the segment of the first and keeps its bounds,
    so the snapshot at 20 misses row 2. -/
def reusedTargetRun : List (Op Nat Nat) :=
  [.commit 10 (.single 1 (.upsert 5) 0), .persist (some 100) 15, .commit 20 (.single 2 (.upsert 6) 0),
    .persist (some 100) 25, .snapshot none [], .commit 30 (.single 3 (.upsert 7) 0),
    .persist (some 200) 35, .snapshot none []]

/-- The next Purge drops row 2, which no snapshot folded and no later window reads. -/
theorem reusedTargetRun_purge_loses :
    ∃ c, Runs.run (tracedStep oneByteRows) Traced.init reusedTargetRun = some c ∧
      ⟨2, .upsert 6, 1, 0, 20⟩ ∈ c.store.hot ∧ c.store.purgeLocked.hot = [] ∧
      ¬ c.Safe ⟨2, .upsert 6, 1, 0, 20⟩ := by
  have hend : (Runs.run (tracedStep oneByteRows) Traced.init reusedTargetRun).map
      (fun c => decide (⟨2, .upsert 6, 1, 0, 20⟩ ∈ c.store.hot ∧ c.store.purgeLocked.hot = [] ∧
        ¬ c.Safe ⟨2, .upsert 6, 1, 0, 20⟩)) = some true := by decide +kernel
  obtain ⟨c, hrun, hend⟩ := Option.map_eq_some_iff.mp hend
  exact ⟨c, hrun, of_decide_eq_true hend⟩

/-- A snapshot that cuts the only segment in the middle. -/
def cutSegmentRun : List (Op Nat Nat) :=
  [.commit 10 (.single 1 (.upsert 5) 0), .commit 20 (.single 2 (.upsert 6) 0), .persist none 25,
    .snapshot (some 15) []]

/-- Purge drops both rows: the first is folded, the second stays in the segment past the snapshot. -/
theorem cutSegmentRun_purge_loses_nothing :
    ∃ c, Runs.run (tracedStep oneByteRows) Traced.init cutSegmentRun = some c ∧
      c.store.purgeLocked.hot = [] ∧ ∀ e ∈ c.store.hot, c.Safe e := by
  have hend : (Runs.run (tracedStep oneByteRows) Traced.init cutSegmentRun).map
      (fun c => decide (c.store.purgeLocked.hot = [])) = some true := by decide +kernel
  obtain ⟨c, hrun, hend⟩ := Option.map_eq_some_iff.mp hend
  have hempty := of_decide_eq_true hend
  refine ⟨c, hrun, hempty, fun e he => ?_⟩
  exact (purge_loses_nothing oneByteRows cutSegmentRun c (by decide +kernel) hrun).1 e he (by simp [hempty])

end Penca
