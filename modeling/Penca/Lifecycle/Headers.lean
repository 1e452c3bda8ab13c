import Penca.Lifecycle.Compact

/-!
# `Lifecycle.Headers` — the parent rows of persist segments

A fork copies the parent rows (headers) of the persist log by their `(persisted_at_micros, log_kind)`, so what
it inherits rests on two facts about them that reads do not need: no two headers of one log share a
`persisted_at_micros`, and no segment holds a row past its header (`HeadersOk`). Every operation keeps them,
the first because a Persist has to pass the watermark of all earlier ones.
-/

namespace Penca

variable {R V : Type}

structure Store.HeadersOk (s : Store R V) : Prop where
  positive : ∀ p ∈ s.tablePersists, 0 < p.persistedAtMicros
  distinct : ∀ p ∈ s.tablePersists, ∀ q ∈ s.tablePersists,
    p.persistedAtMicros = q.persistedAtMicros → p.uuid.logKind = q.uuid.logKind → p.uuid = q.uuid
  covers : ∀ v ∈ s.views, ∀ p ∈ s.tablePersists, p.uuid = v.uuid.parent →
    ∀ e ∈ v.rows, e.commitMicros ≤ p.persistedAtMicros

theorem Store.HeadersOk.init : (Store.init : Store R V).HeadersOk where
  positive := by simp [Store.init]
  distinct := by simp [Store.init]
  covers := by simp [Store.init, Store.views]

theorem Store.HeadersOk.of_eq {s s' : Store R V} (h : s.HeadersOk)
    (hparents : s'.tablePersists = s.tablePersists) (hviews : s'.views = s.views) : s'.HeadersOk := by
  refine ⟨?_, ?_, ?_⟩
  · rw [hparents]
    exact h.positive
  · rw [hparents]
    exact h.distinct
  · rw [hparents, hviews]
    exact h.covers

theorem Store.SegmentsOk.parent_of_view {s : Store R V} (hok : s.SegmentsOk) {v : SegmentView R V}
    (hv : v ∈ s.views) : ∃ p ∈ s.tablePersists, p.uuid = v.uuid.parent := by
  obtain ⟨seg, hseg, rfl⟩ := List.mem_map.mp hv
  exact hok.parent seg hseg

theorem eq_of_mem_persistParents {target : Int} {upserts deletes : List (LogEntry R V)} {u u' : PersistUuid}
    (hu : u ∈ persistParents target upserts deletes) (hu' : u' ∈ persistParents target upserts deletes)
    (hkind : u.logKind = u'.logKind) : u = u' := by
  have htarget : ∀ w ∈ persistParents target upserts deletes, w.effectiveTarget = target := by
    intro w hw
    unfold persistParents at hw
    rcases List.mem_append.mp hw with hw | hw <;> split at hw
    · cases hw
    · rw [List.mem_singleton.mp hw]
    · cases hw
    · rw [List.mem_singleton.mp hw]
  cases u
  cases u'
  rw [PersistUuid.mk.injEq]
  exact ⟨(htarget _ hu).trans (htarget _ hu').symm, hkind⟩

section Persist

variable {cfg : PersistConfig R V} {s : Store R V} {target persistedAt seq : Int}
  {upserts deletes : List (LogEntry R V)}

/-- A header after the writes of a Persist is an old one or one of this Persist. -/
theorem Store.header_of_writePersist {p : TablePersist}
    (hp : p ∈ (s.writePersist cfg target upserts deletes persistedAt seq).tablePersists) :
    (p.uuid ∉ persistParents target upserts deletes ∧
        ∃ q ∈ s.tablePersists, q.uuid = p.uuid ∧ q.persistedAtMicros = p.persistedAtMicros) ∨
      (p.uuid ∈ persistParents target upserts deletes ∧ p.persistedAtMicros = persistedAt) := by
  rw [tablePersists_writePersist] at hp
  obtain ⟨q, hq, rfl⟩ := List.mem_map.mp hp
  rcases mem_insertParents hq with ⟨hold, hnot⟩ | ⟨hu, hat⟩
  · rw [if_neg hnot]
    exact .inl ⟨hnot, q, hold, rfl, rfl⟩
  · rw [if_pos hu]
    exact .inr ⟨hu, hat⟩

/-- A header row is at or below the watermark, so a Persist that passed its gate is past it. -/
theorem Store.header_lt (hparents : ∀ p ∈ s.tablePersists, p.committed = true)
    (hgate : ∀ l, s.persistWatermark = some l → l < persistedAt) {p : TablePersist}
    (hp : p ∈ s.tablePersists) : p.persistedAtMicros < persistedAt := by
  obtain ⟨l, hl, hle⟩ := exists_persistWatermark_of_mem hp (hparents p hp)
  exact lt_of_le_of_lt hle (hgate l hl)

theorem Store.HeadersOk.writePersist (h : s.HeadersOk) (hok : s.SegmentsOk)
    (hparents : ∀ p ∈ s.tablePersists, p.committed = true)
    (hpos : 0 < persistedAt) (hgate : ∀ l, s.persistWatermark = some l → l < persistedAt)
    (hmax : ∀ e ∈ upserts ++ deletes, e.commitMicros ≤ persistedAt)
    (hnc : ∀ w ∈ persistWrites cfg target upserts deletes, s.NoClobberAt w) :
    (s.writePersist cfg target upserts deletes persistedAt seq).HeadersOk := by
  constructor
  case positive =>
    intro p hp
    rcases header_of_writePersist hp with ⟨-, q, hq, -, hat⟩ | ⟨-, hat⟩
    · exact hat ▸ h.positive q hq
    · exact hat ▸ hpos
  case distinct =>
    intro p hp q hq hat hkind
    rcases header_of_writePersist hp with ⟨-, p', hp', hpu, hpat⟩ | ⟨hpu, hpat⟩ <;>
      rcases header_of_writePersist hq with ⟨-, q', hq', hqu, hqat⟩ | ⟨hqu, hqat⟩
    · rw [← hpu, ← hqu] at hkind ⊢
      exact h.distinct p' hp' q' hq' (by omega) hkind
    · have := header_lt hparents hgate hp'
      omega
    · have := header_lt hparents hgate hq'
      omega
    · exact eq_of_mem_persistParents hpu hqu hkind
  case covers =>
    intro v hv p hp hparent e he
    rw [(writePersist_views hok hnc).2] at hv
    rcases List.mem_append.mp hv with hold | hnew
    · rcases header_of_writePersist hp with ⟨-, q, hq, hqu, hat⟩ | ⟨-, hat⟩
      · exact hat ▸ h.covers v hold q hq (hqu.trans hparent) e he
      · obtain ⟨q, hq, hqu⟩ := hok.parent_of_view hold
        have hle := h.covers v hold q hq hqu e he
        have hlt := header_lt hparents hgate hq
        omega
    · obtain ⟨w, hw, rfl⟩ := List.mem_map.mp hnew
      have hw := (List.mem_filter.mp hw).1
      have hmine : p.uuid ∈ persistParents target upserts deletes := hparent ▸ parent_mem_persistParents hw
      rcases header_of_writePersist hp with ⟨hnot, -⟩ | ⟨-, hat⟩
      · exact absurd hmine hnot
      · rw [hat]
        have hmem : ∃ w ∈ persistWrites cfg target upserts deletes, e ∈ w.2 := ⟨w, hw, he⟩
        exact hmax e (exists_mem_persistWrites_iff.mp hmem)

end Persist

theorem Store.HeadersOk.persistLocked {cfg : PersistConfig R V} {s : Store R V} {requestTarget : Option Int}
    {step1Now : Int} (h : s.HeadersOk) (hok : s.SegmentsOk)
    (hparents : ∀ p ∈ s.tablePersists, p.committed = true) (hhot : ∀ e ∈ s.hot, 0 < e.commitMicros)
    (hnc : NoClobber cfg s (.persist requestTarget step1Now)) :
    (s.persistLocked cfg requestTarget step1Now).HeadersOk := by
  rcases s.persistLocked_cases cfg requestTarget step1Now with heq | ⟨persistedAt, seq, hgate, heq⟩
  · rw [heq]
    exact h
  · obtain ⟨⟨a, ha, hat⟩, hmax, -, -, hlast⟩ := computeCandidatePersistedAtGated_eq_some hgate
    have hpos : 0 < persistedAt := hat ▸ hhot a (mem_readCommitted_append.mp ha).1
    rw [heq]
    exact h.writePersist hok hparents hpos hlast hmax (hnc (hgate ▸ rfl))

/-! ## Runs -/

/-- The invariant of runs with compactions, with the headers. -/
structure StoredInv [DecidableEq R] (s : Store R V) (H : History R V) : Prop extends TableInv s H where
  headers : s.HeadersOk

section Run

variable [DecidableEq R] {cfg : PersistConfig R V} {s s' : Store R V} {H : History R V}

theorem StoredInv.hot_pos (hinv : StoredInv s H) : ∀ e ∈ s.hot, 0 < e.commitMicros := by
  intro e he
  exact (History.commitMicros_inRange (hinv.mem_hot.mp he).1).1

theorem StoredInv.persistLocked (hinv : StoredInv s H) {requestTarget : Option Int} {step1Now : Int}
    (hnc : NoClobber cfg s (.persist requestTarget step1Now)) :
    StoredInv (s.persistLocked cfg requestTarget step1Now) H :=
  ⟨⟨hinv.toInv.persistLocked hnc, hinv.uuids.persistLocked cfg requestTarget step1Now⟩,
    hinv.headers.persistLocked hinv.segments.ok hinv.parents hinv.hot_pos hnc⟩

theorem StoredInv.step {op : TableOp R V} (hinv : StoredInv s H) (hnc : TableNoClobber cfg s op)
    (h : tableStep cfg s op = some s') : StoredInv s' (tableHistoryStep H op) := by
  refine ⟨hinv.toTableInv.step hnc h, ?_⟩
  cases op with
  | compact logKind inputs =>
      refine hinv.headers.of_eq ?_ (Store.views_compactOneScope h hinv.segments.ok hinv.uuids)
      obtain ⟨-, rfl⟩ := Store.compactOneScope_eq_some.mp h
      rfl
  | op o =>
      cases o with
      | commit micros rows =>
          rcases Store.commitTx_cases h with rfl | ⟨-, -, rfl⟩
          · exact hinv.headers
          · exact hinv.headers.of_eq rfl (Store.views_of_eq rfl rfl)
      | persist requestTarget step1Now =>
          cases h
          exact hinv.headers.persistLocked hinv.segments.ok hinv.parents hinv.hot_pos hnc
      | snapshot snapshottedAt indexes =>
          cases h
          show (s.snapshotLocked cfg snapshottedAt indexes).HeadersOk
          unfold Store.snapshotLocked
          split
          · exact hinv.headers
          · exact hinv.headers.of_eq rfl (Store.views_of_eq rfl rfl)
      | purge =>
          cases h
          show s.purgeLocked.HeadersOk
          unfold Store.purgeLocked
          split
          · exact hinv.headers
          · exact hinv.headers.of_eq rfl (Store.views_of_eq rfl rfl)

/-- **Run.** A run with compactions whose Persists do not clobber keeps the headers as well. -/
theorem storedInv_run {ops : List (TableOp R V)}
    (hmeets : Runs.Meets (tableStep cfg) (TableNoClobber cfg) Store.init ops)
    (hrun : Runs.run (tableStep cfg) Store.init ops = some s) : StoredInv s (tableHistoryOf ops) :=
  Runs.simulation_of_step (fun _ _ _ _ hinv hnc h => hinv.step hnc h)
    ⟨⟨Inv.init, List.nodup_nil⟩, Store.HeadersOk.init⟩ hmeets hrun

end Run

end Penca
