import Penca.Lib.ReadThrough
import Penca.Lifecycle.Segments
import Penca.Query.Plan

/-!
# `Query.ListCache` — plans made through the snapshot-list cache

The process-wide `SnapshotListCache` keeps the segment list of a snapshot under the key `W_snap` (for one
catalog, branch and table). A read looks up the snapshot of its fused pick by that key; entries disappear at
any time (`time_to_live`, capacity). `W_snap` is a maximum of whole-segment bounds, so two snapshots that cut
the same segment share it, and then one is served for the other.

- **The system** interleaves operations, reads and evictions (`cacheStep`).
- **Main result:** if every Snapshot of a run that commits gets a new `W_snap`, the cache is invisible in
  every state (`cachedPlan_eq_plan`).
-/

namespace Penca

variable {R V : Type} [DecidableEq R]

/-! ## The system -/

/-- The table and the cache of its snapshot lists. -/
structure CachedTable (R V : Type) where
  store : Store R V
  cache : List (Int × TableSnapshot R V)

def CachedTable.init : CachedTable R V := ⟨Store.init, []⟩

/-- `list_snapshot_segments` with a cache: only a fused pick is looked up, and fetched by identity on a
    miss. -/
def CachedTable.listSnapshotSegments (c : CachedTable R V) (pick repick : Option (TableSnapshot R V)) :
    Option (TableSnapshot R V) × List (Int × TableSnapshot R V) :=
  match pick with
  | none   => (repick, c.cache)
  | some n =>
      let (list, cache) := ReadThrough.fetch TableSnapshot.commitSeqNum c.cache n
      (some list, cache)

/-- `plan()` with the cache: the plan and the cache after it. -/
def CachedTable.plan (c : CachedTable R V) (asOfMicros : Int) (commitSeqUpper : Option Int) :
    Plan R V × List (Int × TableSnapshot R V) :=
  let (hotMin, pick) := c.store.hotMinAndSnapshotPick asOfMicros commitSeqUpper
  if hotMin = 0 then (prePersistPlan asOfMicros, c.cache)
  else
    let (snapshot, cache) := c.listSnapshotSegments pick
      (c.store.pickSnapshotAsOf (computeSnapshotPickerAsOf asOfMicros hotMin) commitSeqUpper)
    let (fence, hotPresent) := c.store.phaseOneFenceAndExistence (wSnapOf snapshot)
    (planFrom asOfMicros hotMin snapshot fence hotPresent
      (c.store.planSegments asOfMicros hotMin commitSeqUpper snapshot), cache)

/-- An operation, a read, or the loss of a cache entry. -/
inductive CacheEvent (R V : Type) where
  | op (o : Op R V)
  | read (rs : ReadSnapshot)
  | evict (wSnap : Int)

/-- One event. -/
def cacheStep (cfg : PersistConfig R V) (c : CachedTable R V) : CacheEvent R V → Option (CachedTable R V)
  | .op o        => (step cfg c.store o).map (fun s => { c with store := s })
  | .read rs     => some { c with cache := (c.plan rs.planAsOfMicros rs.planCommitSeqUpper).2 }
  | .evict wSnap => some { c with cache := c.cache.filter (fun e => e.1 != wSnap) }

/-- A Snapshot that commits gets a `W_snap` no committed snapshot has. -/
def Store.FreshWSnap (s : Store R V) : Op R V → Prop
  | .snapshot snapshottedAt _ =>
      match s.computeSnapshotWindow snapshottedAt with
      | none               => True
      | some (upper, prev) =>
          ∀ n ∈ s.snapshots, n.commitSeqNum ≠ s.newSnapshotSeq upper prev
  | _ => True

/-- The guard on an event. -/
def CacheAdmits (c : CachedTable R V) : CacheEvent R V → Prop
  | .op o => c.store.FreshWSnap o
  | _     => True

instance (s : Store R V) : ∀ o, Decidable (s.FreshWSnap o)
  | .snapshot snapshottedAt _ =>
      match h : s.computeSnapshotWindow snapshottedAt with
      | none               => isTrue (by simp [Store.FreshWSnap, h])
      | some (upper, prev) =>
          decidable_of_iff (∀ n ∈ s.snapshots, n.commitSeqNum ≠ s.newSnapshotSeq upper prev)
            (by simp [Store.FreshWSnap, h])
  | .commit _ _ | .persist _ _ | .purge => isTrue trivial

instance (c : CachedTable R V) : ∀ ev, Decidable (CacheAdmits c ev)
  | .op o              => inferInstanceAs (Decidable (c.store.FreshWSnap o))
  | .read _ | .evict _ => isTrue trivial

/-! ## One plan -/

/-- The committed snapshots. -/
def Store.committed (s : Store R V) : Set (TableSnapshot R V) := {n | n ∈ s.snapshots}

omit [DecidableEq R] in
theorem Store.mem_committed_of_pick {s : Store R V} {asOfMicros : Int} {commitSeqUpper : Option Int}
    {n : TableSnapshot R V} (h : s.pickSnapshotAsOf asOfMicros commitSeqUpper = some n) :
    n ∈ s.committed :=
  List.mem_of_mem_filter (Newest.mem_of_newest h)

omit [DecidableEq R] in
/-- The second pick of a plan without a cache selects the fused pick. -/
theorem Store.repick_eq_pick {s : Store R V} (h0 : s.hotMin ≠ 0) (asOfMicros : Int)
    (commitSeqUpper : Option Int) :
    s.pickSnapshotAsOf (computeSnapshotPickerAsOf asOfMicros s.hotMin) commitSeqUpper =
      (s.hotMinAndSnapshotPick asOfMicros commitSeqUpper).2 := by
  cases hp : s.persistWatermark with
  | none => simp [Store.hotMin, hp] at h0
  | some p => simp [hotMinAndSnapshotPick, computeSnapshotPickerAsOf, Store.hotMin, hp]

/-- The key tells the committed snapshots apart, and the cache holds only them. -/
structure CacheInv (c : CachedTable R V) : Prop where
  distinct : Set.InjOn TableSnapshot.commitSeqNum c.store.committed
  faithful : ReadThrough.Faithful TableSnapshot.commitSeqNum c.store.committed c.cache

section OnePlan

omit [DecidableEq R]

variable {c : CachedTable R V} (hc : CacheInv c)
include hc

/-- The snapshot list comes out the same with and without the cache. -/
theorem CacheInv.listSnapshotSegments_eq {pick : Option (TableSnapshot R V)}
    (hpick : ∀ n ∈ pick, n ∈ c.store.committed) : (c.listSnapshotSegments pick pick).1 = pick := by
  cases pick with
  | none => rfl
  | some n => exact congrArg some (ReadThrough.fetch_eq hc.distinct hc.faithful (hpick n rfl))

theorem CacheInv.faithful_listSnapshotSegments {pick repick : Option (TableSnapshot R V)}
    (hpick : ∀ n ∈ pick, n ∈ c.store.committed) :
    ReadThrough.Faithful TableSnapshot.commitSeqNum c.store.committed
      (c.listSnapshotSegments pick repick).2 := by
  cases pick with
  | none => exact hc.faithful
  | some n => exact hc.faithful.fetch (hpick n rfl)

/-- **One plan**: the cache is invisible. -/
theorem CacheInv.plan_eq (asOfMicros : Int) (commitSeqUpper : Option Int) :
    (c.plan asOfMicros commitSeqUpper).1 = c.store.plan asOfMicros commitSeqUpper := by
  unfold CachedTable.plan Store.plan
  simp only
  split
  · rfl
  · rename_i h0
    have hpick : ∀ n ∈ (c.store.hotMinAndSnapshotPick asOfMicros commitSeqUpper).2,
        n ∈ c.store.committed := fun n hn => Store.mem_committed_of_pick hn
    have hmin : (c.store.hotMinAndSnapshotPick asOfMicros commitSeqUpper).1 = c.store.hotMin := rfl
    rw [hmin, Store.repick_eq_pick h0, hc.listSnapshotSegments_eq hpick]

theorem CacheInv.faithful_plan (asOfMicros : Int) (commitSeqUpper : Option Int) :
    ReadThrough.Faithful TableSnapshot.commitSeqNum c.store.committed
      (c.plan asOfMicros commitSeqUpper).2 := by
  unfold CachedTable.plan
  simp only
  split
  · exact hc.faithful
  · exact hc.faithful_listSnapshotSegments (fun n hn => Store.mem_committed_of_pick hn)

end OnePlan

/-! ## Runs -/

theorem CacheInv.step {cfg : PersistConfig R V} {c c' : CachedTable R V} (hc : CacheInv c)
    {ev : CacheEvent R V} (hguard : CacheAdmits c ev) (h : cacheStep cfg c ev = some c') : CacheInv c' := by
  cases ev with
  | read rs =>
      cases h
      exact ⟨hc.distinct, hc.faithful_plan _ _⟩
  | evict wSnap =>
      cases h
      exact ⟨hc.distinct, hc.faithful.filter _⟩
  | op o =>
      obtain ⟨s, hs, rfl⟩ := Option.map_eq_some_iff.mp h
      rcases snapshots_of_step hs with hsame | ⟨snapshottedAt, indexes, upper, prev, rfl, hwindow, -, hnew⟩
      · have hcommitted : s.committed = c.store.committed := by
          unfold Store.committed
          rw [hsame]
        exact ⟨hcommitted ▸ hc.distinct, hcommitted ▸ hc.faithful⟩
      · -- The new snapshot has a key of its own.
        have hcommitted : s.committed =
            insert (c.store.newSnapshot cfg upper prev indexes) c.store.committed := by
          ext n
          simp only [Store.committed, hnew, Set.mem_insert_iff, Set.mem_ofPred_eq, List.mem_append,
            List.mem_singleton]
          exact or_comm
        have hfresh : ∀ n ∈ c.store.snapshots,
            n.commitSeqNum ≠ (c.store.newSnapshot cfg upper prev indexes).commitSeqNum := by
          simpa [CacheAdmits, Store.FreshWSnap, hwindow, Store.newSnapshot] using hguard
        refine ⟨?_, hc.faithful.mono ?_⟩
        · show Set.InjOn TableSnapshot.commitSeqNum s.committed
          rw [hcommitted]
          rintro n (rfl | hn) m (rfl | hm) heq
          · rfl
          · exact absurd heq.symm (hfresh m hm)
          · exact absurd heq (hfresh n hn)
          · exact hc.distinct hn hm heq
        · show c.store.committed ⊆ s.committed
          rw [hcommitted]
          exact Set.subset_insert _ _

/-- **The snapshot-list cache is invisible** in every state of a run whose Snapshots all get a new `W_snap`:
    every plan made through it is the plan made without it. -/
theorem cachedPlan_eq_plan (cfg : PersistConfig R V) (events : List (CacheEvent R V)) (c : CachedTable R V)
    (hmeets : Runs.Meets (cacheStep cfg) CacheAdmits CachedTable.init events)
    (hrun : Runs.run (cacheStep cfg) CachedTable.init events = some c) (rs : ReadSnapshot) :
    (c.plan rs.planAsOfMicros rs.planCommitSeqUpper).1 =
      c.store.plan rs.planAsOfMicros rs.planCommitSeqUpper := by
  have hinit : CacheInv (CachedTable.init : CachedTable R V) := by
    refine ⟨?_, ReadThrough.faithful_nil⟩
    simp [CachedTable.init, Store.init, Store.committed, Set.InjOn]
  have hc : CacheInv c :=
    Runs.invariant_of_step (fun _ _ _ hc hguard h => hc.step hguard h) hinit hmeets hrun
  exact hc.plan_eq _ _

/-- Two snapshots cut one segment and share `W_snap = 2`; a read at the latest position caches the later. -/
def sharedWSnapRun : List (CacheEvent Nat Nat) :=
  [.op (.commit 10 (.single 1 (.upsert 5) 0)), .op (.commit 20 (.single 2 (.upsert 6) 0)),
    .op (.commit 30 (.single 3 (.upsert 7) 0)), .op (.persist none 35), .op (.snapshot (some 10) []),
    .op (.snapshot (some 20) []), .read (.latestSeq 2)]

/-- A read as of 10 is then served the snapshot at 20 and returns row 2, committed at 20. -/
theorem sharedWSnapRun_plan_ne :
    ∃ c, Runs.run (cacheStep oneByteRows) CachedTable.init sharedWSnapRun = some c ∧
      (c.plan 10 none).1 ≠ c.store.plan 10 none ∧
      (2, 6) ∈ c.store.readPlan (.asOfMicros 10) (c.plan 10 none).1 ∧
      (2, 6) ∉ c.store.readData (.asOfMicros 10) := by
  have hend : (Runs.run (cacheStep oneByteRows) CachedTable.init sharedWSnapRun).map
      (fun c => decide ((c.plan 10 none).1 ≠ c.store.plan 10 none ∧
        (2, 6) ∈ c.store.readPlan (.asOfMicros 10) (c.plan 10 none).1 ∧
        (2, 6) ∉ c.store.readData (.asOfMicros 10))) = some true := by decide +kernel
  obtain ⟨c, hrun, hend⟩ := Option.map_eq_some_iff.mp hend
  exact ⟨c, hrun, of_decide_eq_true hend⟩

/-- A Persist between the two snapshots, and reads that cache both. -/
def ownWSnapRun : List (CacheEvent Nat Nat) :=
  [.op (.commit 10 (.single 1 (.upsert 5) 0)), .op (.persist none 15), .op (.snapshot none []),
    .read (.latestSeq 0), .op (.commit 20 (.single 2 (.upsert 6) 0)), .op (.persist none 25),
    .op (.snapshot none []), .read (.latestSeq 1), .evict 0, .read (.asOfMicros 10)]

/-- Each snapshot has a key of its own: a read as of 10 is planned as without the cache. -/
theorem ownWSnapRun_plan_eq :
    ∃ c, Runs.run (cacheStep oneByteRows) CachedTable.init ownWSnapRun = some c ∧ c.cache ≠ [] ∧
      (c.plan 10 none).1 = c.store.plan 10 none := by
  have hend : (Runs.run (cacheStep oneByteRows) CachedTable.init ownWSnapRun).map
      (fun c => decide (c.cache ≠ [])) = some true := by decide +kernel
  obtain ⟨c, hrun, hend⟩ := Option.map_eq_some_iff.mp hend
  exact ⟨c, hrun, of_decide_eq_true hend,
    cachedPlan_eq_plan oneByteRows ownWSnapRun c (by decide +kernel) hrun (.asOfMicros 10)⟩

end Penca
