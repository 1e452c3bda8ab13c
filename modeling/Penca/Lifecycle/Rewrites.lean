import Penca.Lifecycle.Headers

/-!
# `Lifecycle.Rewrites` — what Persist writes again

Persist writes every hot row up to its target, whether an earlier Persist wrote it or not. Hot rows are an end
of the log, so if a header holds an entry, then every newer persisted entry is under a header as late
(`SuffixStored`). What a fork copies, the segments under the headers past a position, is therefore an end of
the parent's log.

A Persist with a target used before writes under the headers of the earlier one and moves their
`persisted_at_micros`. `FirstChunks` covers this case: such a Persist writes the first chunk again, and no row
of a header is older than its first chunk.
-/

namespace Penca

variable {R V : Type}

/-! ## First chunks -/

/-- The first chunk starts with the oldest row of the batch. -/
theorem exists_chunkPersistBatch_eq_cons (cfg : PersistConfig R V) {batch : List (LogEntry R V)}
    (hne : batch ≠ []) :
    ∃ x c cs, chunkPersistBatch cfg batch = (x :: c) :: cs ∧ ∀ a ∈ batch, x.commitSeqNum ≤ a.commitSeqNum := by
  have hperm := List.perm_insertionSort (fun a b : LogEntry R V => a.orderKey ≤ b.orderKey) batch
  have hsorted := List.pairwise_insertionSort (fun a b : LogEntry R V => a.orderKey ≤ b.orderKey) batch
  have hflatten := flatten_chunkPersistBatch cfg batch
  cases hc : chunkPersistBatch cfg batch with
  | nil =>
      rw [hc, List.flatten_nil] at hflatten
      rw [← hflatten] at hperm
      exact absurd hperm.nil_eq.symm hne
  | cons chunk cs =>
      have hchunk : chunk ∈ chunkPersistBatch cfg batch := hc ▸ List.mem_cons_self
      obtain ⟨x, c, rfl⟩ := List.exists_cons_of_ne_nil (ne_nil_of_mem_chunkPersistBatch chunk hchunk)
      rw [hc, List.flatten_cons, List.cons_append] at hflatten
      rw [← hflatten] at hperm hsorted
      refine ⟨x, c, cs, rfl, ?_⟩
      intro a ha
      rcases List.mem_cons.mp (hperm.mem_iff.mpr ha) with rfl | hrest
      · exact le_refl _
      · have hle := (List.pairwise_cons.mp hsorted).1 a hrest
        rcases Prod.Lex.toLex_le_toLex.mp hle with hlt | ⟨heq, -⟩
        · exact le_of_lt hlt
        · exact le_of_eq heq

section FirstWrite

variable {cfg : PersistConfig R V} {target : Int} {upserts deletes : List (LogEntry R V)}

/-- Every header of a Persist gets a first chunk, with the oldest of its rows. -/
theorem exists_first_write {u : PersistUuid} (hu : u ∈ persistParents target upserts deletes) :
    ∃ w₀ ∈ persistWrites cfg target upserts deletes, w₀.1 = ⟨u, 0⟩ ∧ ∃ a₀ ∈ w₀.2,
      ∀ w ∈ persistWrites cfg target upserts deletes, w.1.parent = u → ∀ a ∈ w.2,
        a₀.commitSeqNum ≤ a.commitSeqNum := by
  have hfirst : ∀ (batch : List (LogEntry R V)), batch ≠ [] →
      ∃ w₀ ∈ segmentWrites u (chunkPersistBatch cfg batch), w₀.1 = ⟨u, 0⟩ ∧ ∃ a₀ ∈ w₀.2,
        ∀ w ∈ segmentWrites u (chunkPersistBatch cfg batch), ∀ a ∈ w.2, a₀.commitSeqNum ≤ a.commitSeqNum := by
    intro batch hne
    obtain ⟨x, c, cs, heq, hmin⟩ := exists_chunkPersistBatch_eq_cons cfg hne
    refine ⟨(⟨u, 0⟩, x :: c), ?_, rfl, x, List.mem_cons_self, ?_⟩
    · rw [heq]
      exact List.mem_map.mpr ⟨(x :: c, 0), List.mem_cons_self, rfl⟩
    · intro w hw a ha
      exact hmin a ((mem_chunk_iff cfg).mp ⟨w.2, (mem_segmentWrites hw).2, ha⟩)
  unfold persistParents at hu
  rcases List.mem_append.mp hu with hu | hu <;> split at hu
  · cases hu
  · rename_i hne
    obtain rfl := List.mem_singleton.mp hu
    obtain ⟨w₀, hw₀, huuid, a₀, ha₀, hmin⟩ := hfirst upserts (by simpa using hne)
    refine ⟨w₀, List.mem_append_left _ hw₀, huuid, a₀, ha₀, ?_⟩
    intro w hw hparent
    rcases List.mem_append.mp hw with hw | hw
    · exact hmin w hw
    · rw [(mem_segmentWrites hw).1] at hparent
      cases hparent
  · cases hu
  · rename_i hne
    obtain rfl := List.mem_singleton.mp hu
    obtain ⟨w₀, hw₀, huuid, a₀, ha₀, hmin⟩ := hfirst deletes (by simpa using hne)
    refine ⟨w₀, List.mem_append_right _ hw₀, huuid, a₀, ha₀, ?_⟩
    intro w hw hparent
    rcases List.mem_append.mp hw with hw | hw
    · rw [(mem_segmentWrites hw).1] at hparent
      cases hparent
    · exact hmin w hw

end FirstWrite

/-! ## The invariant -/

/-- Every header with a segment has its first chunk, and no row of it is older than a row of that chunk. -/
def Store.FirstChunks (s : Store R V) : Prop :=
  ∀ v ∈ s.views, ∃ v₀ ∈ s.views, v₀.uuid = ⟨v.uuid.parent, 0⟩ ∧
    ∃ a₀ ∈ v₀.rows, ∀ a ∈ v.rows, a₀.commitSeqNum ≤ a.commitSeqNum

/-- The entry is in a segment under a header at or past `at'`. -/
def Store.StoredFrom (s : Store R V) (at' : Int) (e : LogEntry R V) : Prop :=
  ∃ v ∈ s.views, e ∈ v.rows ∧ ∃ q ∈ s.tablePersists, q.uuid = v.uuid.parent ∧ at' ≤ q.persistedAtMicros

/-- Every persisted entry newer than one under a header is under a header as late. -/
def Store.SuffixStored (s : Store R V) (H : History R V) : Prop :=
  ∀ v ∈ s.views, ∀ q ∈ s.tablePersists, q.uuid = v.uuid.parent → ∀ a ∈ v.rows, ∀ e ∈ H.entries,
    a.commitSeqNum ≤ e.commitSeqNum → s.PersistedEntry e → s.StoredFrom q.persistedAtMicros e

section Persist

variable {cfg : PersistConfig R V} {s : Store R V} {target persistedAt seq : Int}
  {upserts deletes : List (LogEntry R V)}
  (hok : s.SegmentsOk) (hnc : ∀ w ∈ persistWrites cfg target upserts deletes, s.NoClobberAt w)
include hok hnc

/-- What a Persist writes is there afterwards, under a uuid that was new or held the same rows. -/
theorem Store.exists_view_of_write {w : SegmentUuid × List (LogEntry R V)}
    (hw : w ∈ persistWrites cfg target upserts deletes) :
    ∃ v ∈ (s.writePersist cfg target upserts deletes persistedAt seq).views, v.uuid = w.1 ∧ v.rows = w.2 := by
  rw [(writePersist_views hok hnc).2]
  cases hhas : s.hasSegment w.1 with
  | false =>
      refine ⟨SegmentView.ofRows w.1 w.2, List.mem_append_right _ (List.mem_map.mpr ⟨w, ?_, rfl⟩), rfl, rfl⟩
      exact List.mem_filter.mpr ⟨hw, by simp [hhas]⟩
  | true =>
      obtain ⟨seg, hseg, hu⟩ := List.any_eq_true.mp hhas
      refine ⟨s.view seg, List.mem_append_left _ (List.mem_map_of_mem hseg), of_decide_eq_true hu, ?_⟩
      exact (hnc w hw seg hseg (of_decide_eq_true hu)).1

theorem Store.FirstChunks.writePersist (h : s.FirstChunks) :
    (s.writePersist cfg target upserts deletes persistedAt seq).FirstChunks := by
  have hviews : (s.writePersist cfg target upserts deletes persistedAt seq).views = _ :=
    (writePersist_views hok hnc).2
  intro v hv
  rw [hviews] at hv
  rcases List.mem_append.mp hv with hold | hnew
  · obtain ⟨v₀, hv₀, hrest⟩ := h v hold
    exact ⟨v₀, hviews ▸ List.mem_append_left _ hv₀, hrest⟩
  · obtain ⟨w, hw, rfl⟩ := List.mem_map.mp hnew
    have hw := (List.mem_filter.mp hw).1
    obtain ⟨w₀, hw₀, huuid, a₀, ha₀, hmin⟩ := exists_first_write (parent_mem_persistParents hw)
    obtain ⟨v₀, hv₀, hu₀, hrows₀⟩ := exists_view_of_write hok hnc hw₀
    exact ⟨v₀, hv₀, hu₀.trans huuid, a₀, hrows₀ ▸ ha₀, hmin w hw rfl⟩

omit hok hnc in
/-- No header is lost or goes back. -/
theorem Store.exists_header_writePersist (hparents : ∀ p ∈ s.tablePersists, p.committed = true)
    (hgate : ∀ l, s.persistWatermark = some l → l < persistedAt) {q : TablePersist} (hq : q ∈ s.tablePersists) :
    ∃ q' ∈ (s.writePersist cfg target upserts deletes persistedAt seq).tablePersists,
      q'.uuid = q.uuid ∧ q.persistedAtMicros ≤ q'.persistedAtMicros := by
  obtain ⟨q', hq', huuid, hat⟩ := exists_insertParents_of_mem (persistParents target upserts deletes) hq
  rw [tablePersists_writePersist]
  refine ⟨_, List.mem_map_of_mem hq', ?_, ?_⟩
  · split <;> exact huuid
  · have hle : q.persistedAtMicros ≤ q'.persistedAtMicros := by
      have hlt := header_lt hparents hgate hq
      rcases hat with hsame | hnew <;> omega
    split <;> exact hle

/-- **A Persist writes an end of the log.** -/
theorem Store.SuffixStored.writePersist {H : History R V} (h : s.SuffixStored H) (hchunks : s.FirstChunks)
    (hparents : ∀ p ∈ s.tablePersists, p.committed = true)
    (hgate : ∀ l, s.persistWatermark = some l → l < persistedAt)
    (hbatch : ∀ e, e ∈ upserts ++ deletes ↔ e ∈ s.hot ∧ e.commitMicros ≤ persistedAt)
    (hhot : ∀ a ∈ s.hot, ∀ e ∈ H.entries, a.commitSeqNum ≤ e.commitSeqNum → e ∈ s.hot)
    (hcold : ∀ e ∈ H.entries, e ∉ s.hot → s.PersistedEntry e)
    (hwm : (s.writePersist cfg target upserts deletes persistedAt seq).persistWatermark = some persistedAt) :
    (s.writePersist cfg target upserts deletes persistedAt seq).SuffixStored H := by
  obtain ⟨hok', hviews⟩ : (s.writePersist cfg target upserts deletes persistedAt seq).SegmentsOk ∧ _ :=
    writePersist_views hok hnc
  have hwrites : ∀ w ∈ persistWrites cfg target upserts deletes, ∀ a ∈ w.2, a ∈ s.hot := by
    intro w hw a ha
    exact ((hbatch a).mp (exists_mem_persistWrites_iff.mp ⟨w, hw, ha⟩)).1
  -- What is hot up to the new watermark is now under a header at it.
  have hlate : ∀ e ∈ s.hot, e.commitMicros ≤ persistedAt →
      (s.writePersist cfg target upserts deletes persistedAt seq).StoredFrom persistedAt e := by
    intro e he hle
    obtain ⟨w, hw, hew⟩ := exists_mem_persistWrites_iff.mpr ((hbatch e).mpr ⟨he, hle⟩)
    obtain ⟨v, hv, huuid, hrows⟩ := exists_view_of_write hok hnc hw
    obtain ⟨q, hq, hqu⟩ := hok'.parent_of_view hv
    refine ⟨v, hv, hrows ▸ hew, q, hq, hqu, ?_⟩
    rcases header_of_writePersist hq with ⟨hnot, -⟩ | ⟨-, hat⟩
    · rw [hqu, huuid] at hnot
      exact absurd (parent_mem_persistParents hw) hnot
    · exact hat.ge
  intro v hv q hq hqv a ha e he hle hpers
  have hmicros : e.commitMicros ≤ persistedAt := by
    obtain ⟨l, hl, hel⟩ := hpers
    obtain rfl := Option.some.inj (hwm.symm.trans hl)
    exact hel
  rw [hviews] at hv
  rcases header_of_writePersist hq with ⟨hnot, q₀, hq₀, hu₀, hat₀⟩ | ⟨hmine, hat⟩
  · -- An older header: the segment is an older one.
    have hold : v ∈ s.views := by
      refine (List.mem_append.mp hv).resolve_right (fun hnew => ?_)
      obtain ⟨w, hw, rfl⟩ := List.mem_map.mp hnew
      exact hnot (hqv ▸ parent_mem_persistParents (List.mem_filter.mp hw).1)
    by_cases hbefore : s.PersistedEntry e
    · obtain ⟨v₁, hv₁, hev₁, q₁, hq₁, hqu₁, hat₁⟩ := h v hold q₀ hq₀ (hu₀.trans hqv) a ha e he hle hbefore
      obtain ⟨q', hq', hqu', hat'⟩ := exists_header_writePersist hparents hgate hq₁
      refine ⟨v₁, hviews ▸ List.mem_append_left _ hv₁, hev₁, q', hq', hqu'.trans hqu₁, ?_⟩
      omega
    · have hhot' : e ∈ s.hot := by
        by_contra hgone
        exact hbefore (hcold e he hgone)
      obtain ⟨v₁, hv₁, hev₁, q₁, hq₁, hqu₁, hat₁⟩ := hlate e hhot' hmicros
      have hlt := header_lt hparents hgate hq₀
      exact ⟨v₁, hv₁, hev₁, q₁, hq₁, hqu₁, by omega⟩
  · -- A header of this Persist: the entry is hot, since the older one was, or the first chunk was.
    rw [hat]
    refine hlate e ?_ hmicros
    rcases List.mem_append.mp hv with hold | hnew
    · obtain ⟨v₀, hv₀, hu₀, a₀, ha₀, hmin⟩ := hchunks v hold
      obtain ⟨w₀, hw₀, hwu₀, -⟩ := exists_first_write hmine
      obtain ⟨seg, hseg, rfl⟩ := List.mem_map.mp hv₀
      have hrows := (hnc w₀ hw₀ seg hseg (by rw [hwu₀, hqv]; exact hu₀)).1
      have ha₀hot : a₀ ∈ s.hot := by
        refine hwrites w₀ hw₀ a₀ ?_
        rw [← hrows]
        exact ha₀
      exact hhot a₀ ha₀hot e he ((hmin a ha).trans hle)
    · obtain ⟨w, hw, rfl⟩ := List.mem_map.mp hnew
      exact hhot a (hwrites w (List.mem_filter.mp hw).1 a ha) e he hle

end Persist

/-! ## Runs -/

/-- The invariant of runs with compactions, with what Persist writes again. -/
structure RewriteInv [DecidableEq R] (s : Store R V) (H : History R V) : Prop extends StoredInv s H where
  chunks : s.FirstChunks
  suffix : s.SuffixStored H

section Run

variable [DecidableEq R] {cfg : PersistConfig R V} {s s' : Store R V} {H : History R V}

theorem RewriteInv.persistLocked (hinv : RewriteInv s H) {requestTarget : Option Int} {step1Now : Int}
    (hnc : NoClobber cfg s (.persist requestTarget step1Now)) :
    RewriteInv (s.persistLocked cfg requestTarget step1Now) H := by
  have hstored := hinv.toStoredInv.persistLocked hnc
  rcases s.persistLocked_cases cfg requestTarget step1Now with heq | ⟨persistedAt, seq, hgate, heq⟩
  · rw [heq]
    exact hinv
  · have hnc := hnc (hgate ▸ rfl)
    obtain ⟨⟨a, ha, hat⟩, hmax, -, -, hlast⟩ := computeCandidatePersistedAtGated_eq_some hgate
    rw [heq] at hstored ⊢
    refine ⟨hstored, hinv.chunks.writePersist hinv.segments.ok hnc, ?_⟩
    refine hinv.suffix.writePersist hinv.segments.ok hnc hinv.chunks hinv.parents hlast ?_ ?_ ?_ ?_
    · intro e
      constructor
      · intro he
        exact ⟨(Store.mem_readCommitted_append.mp he).1, hmax e he⟩
      · rintro ⟨he, hle⟩
        have htarget := (Store.mem_readCommitted_append.mp ha).2
        exact Store.mem_readCommitted_append.mpr ⟨he, by omega⟩
    · intro a ha e he hle
      rw [hinv.branch.mem_hot] at ha ⊢
      exact ⟨he, fun pu hpu => lt_of_lt_of_le (ha.2 pu hpu) hle⟩
    · exact fun e he hgone => hinv.branch.persisted_of_not_mem_hot he hgone
    · exact Store.writePersist_persistWatermark hinv.parents (List.ne_nil_of_mem ha) hlast

omit [DecidableEq R] in
/-- The headers and the views are all that counts, for a history whose new entries are not persisted. -/
theorem Store.SuffixStored.of_eq {H' : History R V} (h : s.SuffixStored H)
    (hparents : s'.tablePersists = s.tablePersists) (hviews : s'.views = s.views)
    (hold : ∀ e ∈ H'.entries, s.PersistedEntry e → e ∈ H.entries) : s'.SuffixStored H' := by
  unfold Store.SuffixStored Store.StoredFrom Store.PersistedEntry Store.persistWatermark
  rw [hparents, hviews]
  intro v hv q hq hqv a ha e he hle hpers
  exact h v hv q hq hqv a ha e (hold e he hpers) hle hpers

theorem RewriteInv.step {op : TableOp R V} (hinv : RewriteInv s H) (hnc : TableNoClobber cfg s op)
    (h : tableStep cfg s op = some s') : RewriteInv s' (tableHistoryStep H op) := by
  have hstored := hinv.toStoredInv.step hnc h
  have hkeep : s'.tablePersists = s.tablePersists → s'.views = s.views →
      (∀ e ∈ (tableHistoryStep H op).entries, s.PersistedEntry e → e ∈ H.entries) →
      RewriteInv s' (tableHistoryStep H op) := by
    intro hparents hviews hold
    refine ⟨hstored, ?_, hinv.suffix.of_eq hparents hviews hold⟩
    rw [Store.FirstChunks, hviews]
    exact hinv.chunks
  cases op with
  | compact logKind inputs =>
      refine hkeep ?_ (Store.views_compactOneScope h hinv.segments.ok hinv.uuids) (fun e he _ => he)
      obtain ⟨-, rfl⟩ := Store.compactOneScope_eq_some.mp h
      rfl
  | op o =>
      cases o with
      | commit micros rows =>
          rcases hinv.commitTx_cases h with ⟨rfl, hH⟩ | ⟨hacc, hH, rfl⟩
          · refine hkeep rfl rfl (fun e he _ => ?_)
            have heq : (H.commit micros rows).entries = H.entries := by rw [hH]
            exact heq ▸ he
          · refine hkeep rfl (Store.views_of_eq rfl rfl) (fun e he hpers => ?_)
            have heq : (H.commit micros rows).entries = H.entries ++ (H.nextTx micros rows).entries := by
              rw [hH, History.entries_append]
            rcases List.mem_append.mp (heq ▸ he) with hold | hnew
            · exact hold
            · -- A new entry is past the watermark.
              obtain ⟨p, hp, hle⟩ := hpers
              exact absurd (hinv.watermark_lt_of_accepts hacc hp hnew) (by omega)
      | persist requestTarget step1Now =>
          cases h
          exact hinv.persistLocked hnc
      | snapshot snapshottedAt indexes =>
          cases h
          have heq : (s.snapshotLocked cfg snapshottedAt indexes).tablePersists = s.tablePersists ∧
              (s.snapshotLocked cfg snapshottedAt indexes).views = s.views := by
            unfold Store.snapshotLocked
            split
            · exact ⟨rfl, rfl⟩
            · exact ⟨rfl, Store.views_of_eq rfl rfl⟩
          exact hkeep heq.1 heq.2 (fun e he _ => he)
      | purge =>
          cases h
          have heq : s.purgeLocked.tablePersists = s.tablePersists ∧ s.purgeLocked.views = s.views := by
            unfold Store.purgeLocked
            split
            · exact ⟨rfl, rfl⟩
            · exact ⟨rfl, Store.views_of_eq rfl rfl⟩
          exact hkeep heq.1 heq.2 (fun e he _ => he)

/-- **Run.** A run whose Persists do not clobber keeps the ends of the log together. -/
theorem rewriteInv_run {ops : List (TableOp R V)}
    (hmeets : Runs.Meets (tableStep cfg) (TableNoClobber cfg) Store.init ops)
    (hrun : Runs.run (tableStep cfg) Store.init ops = some s) : RewriteInv s (tableHistoryOf ops) := by
  have hinit : RewriteInv (Store.init : Store R V) History.empty := by
    refine ⟨⟨⟨Inv.init, List.nodup_nil⟩, Store.HeadersOk.init⟩, ?_, ?_⟩
    · exact fun v hv => absurd hv List.not_mem_nil
    · exact fun v hv => absurd hv List.not_mem_nil
  exact Runs.simulation_of_step (fun _ _ _ _ hinv hnc h => hinv.step hnc h) hinit hmeets hrun

end Run

end Penca
