import Penca.Lifecycle.Compact
import Penca.Query.Plan

/-!
# `Query.Ordering` — the output ordering of the persist stream

`PersistTableProvider` streams the segments of a plan one after the other in a single partition and declares
`(commit_seq_num, write_seq_num)` as its output ordering. `chunk_persist_batch` sorts the rows of one Persist;
across Persists the order rests on the listing key `(min_commit_seq_num, chunk_idx)` of the segment statement.

A listing is any order of the segments the `ORDER BY` allows, rows of one key in any order. If every two segments of
one log are in order, the stream of every listing of every plan is (`Store.streamsOrdered`). Compaction changes no
view, and a Persist that reads only rows not persisted yet appends views past all others, so the streams of a whole
run are ordered (`streamsOrdered_run`). Persist reads the hot rows without a lower bound: rows that Purge has not
dropped yet are written again, and the ranges of two Persists overlap.
-/

namespace Penca

variable {R V : Type}

/-! ## Listings and streams -/

/-- The key of `ORDER BY seg.min_commit_seq_num, seg.chunk_idx`. -/
def PersistSegment.listingKey (seg : PersistSegment) : Int ×ₗ Nat := toLex (seg.minCommitSeqNum, seg.uuid.chunkIdx)

/-- `l` lists the rows `segs` in an order the `ORDER BY` allows. -/
structure Listing (segs l : List PersistSegment) : Prop where
  perm : l.Perm segs
  sorted : l.Pairwise (fun a b => a.listingKey ≤ b.listingKey)

/-- The snapshot the plan of a read starts from. -/
def Store.planSnapshot (s : Store R V) (rs : ReadSnapshot) (hotMin : Int) : Option (TableSnapshot R V) :=
  s.pickSnapshotAsOf (computeSnapshotPickerAsOf rs.planAsOfMicros hotMin) rs.planCommitSeqUpper

/-- The segments the plan of a read lists. -/
def Store.plannedSegments (s : Store R V) (rs : ReadSnapshot) : List PersistSegment :=
  s.planSegments rs.planAsOfMicros s.hotMin rs.planCommitSeqUpper (s.planSnapshot rs s.hotMin)

/-- `plan()` when the segment statement returned the rows in the order `l`. -/
def Store.planListing (s : Store R V) (rs : ReadSnapshot) (l : List PersistSegment) : Plan R V :=
  if s.hotMin = 0 then prePersistPlan rs.planAsOfMicros
  else
    planFrom rs.planAsOfMicros s.hotMin (s.planSnapshot rs s.hotMin)
      (s.phaseOneFenceAndExistence (wSnapOf (s.planSnapshot rs s.hotMin))).1
      (s.phaseOneFenceAndExistence (wSnapOf (s.planSnapshot rs s.hotMin))).2 l

/-- The plan of `Query.Plan` is the one of the stable listing. -/
theorem Store.plan_eq_planListing (s : Store R V) (rs : ReadSnapshot) :
    s.plan rs.planAsOfMicros rs.planCommitSeqUpper = s.planListing rs (s.plannedSegments rs) := rfl

/-- `PersistPartitionStream::execute`: the segments one after the other, each clamped to its own ceiling. -/
def Store.persistStream (s : Store R V) (segments : List PersistSegment) : List (LogEntry R V) :=
  segments.flatMap s.readSegment

/-- The ordering `PersistTableProvider::scan` declares. -/
def OutputOrdering (rows : List (LogEntry R V)) : Prop := rows.Pairwise (fun e f => e.orderKey ≤ f.orderKey)

instance (rows : List (LogEntry R V)) : Decidable (OutputOrdering rows) :=
  inferInstanceAs (Decidable (rows.Pairwise _))

/-- For every read and every listing, both streams of the plan are ordered as declared. -/
def Store.StreamsOrdered (s : Store R V) : Prop :=
  ∀ rs l, Listing (s.plannedSegments rs) l →
    ∀ p, (s.planListing rs l).coldStorage.bind ColdStoragePlan.persist = some p →
      OutputOrdering (s.persistStream p.upsertSegments) ∧ OutputOrdering (s.persistStream p.deleteSegments)

section Listings

variable {s : Store R V} {rs : ReadSnapshot} {l : List PersistSegment}

theorem listing_plannedSegments : Listing (s.plannedSegments rs) (s.plannedSegments rs) :=
  ⟨List.Perm.refl _, List.pairwise_insertionSort _ _⟩

/-- What a plan that lists anything hands to the two providers. -/
theorem Store.planListing_persist (hhot : s.hotMin ≠ 0) (hl : l ≠ []) :
    ∃ maxMicros maxSeq, (s.planListing rs l).coldStorage.bind ColdStoragePlan.persist =
      some ⟨l.filter (fun seg => seg.logKind = .upsertLog), l.filter (fun seg => seg.logKind = .deleteLog),
        maxMicros, maxSeq⟩ := by
  obtain ⟨seg, hseg⟩ := List.exists_mem_of_ne_nil l hl
  have hsome : ¬((l.filter (fun seg => seg.logKind = .upsertLog)).isEmpty &&
      (l.filter (fun seg => seg.logKind = .deleteLog)).isEmpty) = true := by
    simp only [Bool.and_eq_true, List.isEmpty_iff, List.filter_eq_nil_iff, decide_eq_true_eq, not_and]
    intro hups hdels
    cases hk : seg.logKind with
    | upsertLog => exact hups seg hseg hk
    | deleteLog => exact hdels seg hseg hk
  refine ⟨satSucc rs.planAsOfMicros,
    some (s.phaseOneFenceAndExistence (wSnapOf (s.planSnapshot rs s.hotMin))).1, ?_⟩
  rw [planListing, if_neg hhot]
  simp only [planFrom, assemblePlan, planColdStorage, if_neg hhot, if_neg hsome, Option.isSome_some, Bool.or_true,
    if_true, Option.bind_some]

theorem Store.planListing_persist_eq {p : PersistPlan}
    (hp : (s.planListing rs l).coldStorage.bind ColdStoragePlan.persist = some p) :
    p.upsertSegments = l.filter (fun seg => seg.logKind = .upsertLog) ∧
      p.deleteSegments = l.filter (fun seg => seg.logKind = .deleteLog) := by
  by_cases hhot : s.hotMin = 0
  · rw [planListing, if_pos hhot] at hp
    simp [prePersistPlan, assemblePlan, planColdStorage] at hp
  · by_cases hl : l = []
    · subst hl
      rw [planListing, if_neg hhot] at hp
      simp only [planFrom, assemblePlan, planColdStorage, if_neg hhot, List.filter_nil, List.isEmpty_nil,
        Bool.and_self, if_true, Option.isSome_none, Bool.or_false] at hp
      split at hp <;> simp at hp
    · obtain ⟨maxMicros, maxSeq, heq⟩ := @planListing_persist R V s rs l hhot hl
      obtain rfl := Option.some.inj (heq.symm.trans hp)
      exact ⟨rfl, rfl⟩

end Listings

/-! ## Pairs of views -/

/-- The listing key of a view. -/
def SegmentView.listingKey (v : SegmentView R V) : Int ×ₗ Nat := toLex (v.minCommitSeqNum, v.uuid.chunkIdx)

/-- If a listing may put `a` before `b`, no row of `a` comes after a row of `b`. -/
def InListingOrder (a b : SegmentView R V) : Prop :=
  a.listingKey ≤ b.listingKey → ∀ e ∈ a.rows, ∀ f ∈ b.rows, e.orderKey ≤ f.orderKey

/-- Every two segments of one log are in order. -/
def Store.PairsInOrder (s : Store R V) : Prop :=
  ∀ a ∈ s.views, ∀ b ∈ s.views, a.uuid ≠ b.uuid → a.uuid.parent.logKind = b.uuid.parent.logKind → InListingOrder a b

/-- The rows of every segment are sorted. -/
def Store.RowsSorted (s : Store R V) : Prop := ∀ v ∈ s.views, OutputOrdering v.rows

section Streams

variable {s : Store R V} {rs : ReadSnapshot}

theorem Store.mem_of_mem_plannedSegments (hwf : s.SegmentsWF) {seg : PersistSegment} (h : seg ∈ s.plannedSegments rs) :
    seg ∈ s.persistSegments :=
  ((mem_segmentsForWindow_iff hwf.ok).mp h).1

/-- Pairs in order and sorted rows make the stream of any listing of one log ordered. -/
theorem Store.PairsInOrder.outputOrdering (hpairs : s.PairsInOrder) (hwf : s.SegmentsWF) (hnodup : s.UuidsNodup)
    (hsorted : s.RowsSorted) {l : List PersistSegment} (hl : Listing (s.plannedSegments rs) l) (kind : LogKind) :
    OutputOrdering (s.persistStream (l.filter (fun seg => seg.logKind = kind))) := by
  have hmem : ∀ seg ∈ l, seg ∈ s.persistSegments :=
    fun seg hseg => mem_of_mem_plannedSegments hwf (hl.perm.mem_iff.mp hseg)
  have hplanned : (s.plannedSegments rs).Nodup := by
    refine (List.perm_insertionSort _ _).nodup_iff.mpr ?_
    exact (List.Nodup.of_map _ hnodup).filter _
  have hnodupL : l.Nodup := hl.perm.nodup_iff.mpr hplanned
  rw [OutputOrdering, persistStream, List.flatMap_def, List.pairwise_flatten]
  constructor
  · intro rows hrows
    obtain ⟨seg, hseg, rfl⟩ := List.mem_map.mp hrows
    have hin := hmem seg (List.mem_filter.mp hseg).1
    rw [readSegment_eq hwf hin]
    exact hsorted (s.view seg) (List.mem_map_of_mem hin)
  · rw [List.pairwise_map, List.pairwise_filter]
    refine (hl.sorted.and hnodupL).imp_of_mem ?_
    rintro a b ha hb ⟨hkey, hne⟩ hka hkb e he f hf
    have hina := hmem a ha
    have hinb := hmem b hb
    rw [readSegment_eq hwf hina] at he
    rw [readSegment_eq hwf hinb] at hf
    have hkinds : a.logKind = b.logKind := (of_decide_eq_true hka).trans (of_decide_eq_true hkb).symm
    exact hpairs (s.view a) (List.mem_map_of_mem hina) (s.view b) (List.mem_map_of_mem hinb)
      (fun hu => hne (hnodup.eq_of_uuid hina hinb hu)) hkinds hkey e he f hf

/-- **With all segments in order every plan streams in order.** -/
theorem Store.streamsOrdered (hpairs : s.PairsInOrder) (hwf : s.SegmentsWF) (hnodup : s.UuidsNodup)
    (hsorted : s.RowsSorted) : s.StreamsOrdered := by
  intro rs l hl p hp
  obtain ⟨hups, hdels⟩ := planListing_persist_eq hp
  rw [hups, hdels]
  exact ⟨hpairs.outputOrdering hwf hnodup hsorted hl _, hpairs.outputOrdering hwf hnodup hsorted hl _⟩

end Streams

/-! ## The chunks of one Persist -/

section Chunks

variable {cfg : PersistConfig R V} {target : Int} {upserts deletes : List (LogEntry R V)}
  {w w' : SegmentUuid × List (LogEntry R V)}

/-- The chunks of a batch, one after the other, are sorted. -/
theorem outputOrdering_flatten_chunkPersistBatch (cfg : PersistConfig R V) (batch : List (LogEntry R V)) :
    OutputOrdering (chunkPersistBatch cfg batch).flatten := by
  rw [flatten_chunkPersistBatch]
  exact List.pairwise_insertionSort (fun a b : LogEntry R V => a.orderKey ≤ b.orderKey) batch

/-- Within one log, the rows of a lower chunk index come first. -/
theorem rows_le_of_chunkIdx_lt {parent : PersistUuid} {chunks : List (List (LogEntry R V))}
    (hsorted : OutputOrdering chunks.flatten) (hw : w ∈ segmentWrites parent chunks)
    (hw' : w' ∈ segmentWrites parent chunks) (hlt : w.1.chunkIdx < w'.1.chunkIdx) :
    ∀ e ∈ w.2, ∀ f ∈ w'.2, e.orderKey ≤ f.orderKey := by
  obtain ⟨⟨c, i⟩, hc, rfl⟩ := List.mem_map.mp hw
  obtain ⟨⟨c', j⟩, hc', rfl⟩ := List.mem_map.mp hw'
  obtain ⟨hi, rfl⟩ := List.getElem?_eq_some_iff.mp (List.mk_mem_zipIdx_iff_getElem?.mp hc)
  obtain ⟨hj, rfl⟩ := List.getElem?_eq_some_iff.mp (List.mk_mem_zipIdx_iff_getElem?.mp hc')
  exact List.pairwise_iff_getElem.mp (List.pairwise_flatten.mp hsorted).2 i j hi hj hlt

/-- Two chunks of one log are listed in the order they were cut. -/
theorem inListingOrder_segmentWrites {parent : PersistUuid} {chunks : List (List (LogEntry R V))}
    (hsorted : OutputOrdering chunks.flatten) (hnonempty : ∀ c ∈ chunks, c ≠ [])
    (hw : w ∈ segmentWrites parent chunks) (hw' : w' ∈ segmentWrites parent chunks) (hne : w.1 ≠ w'.1) :
    InListingOrder (SegmentView.ofRows w.1 w.2) (SegmentView.ofRows w'.1 w'.2) := by
  have hparents : w.1.parent = w'.1.parent := (mem_segmentWrites hw).1.trans (mem_segmentWrites hw').1.symm
  intro hkey
  rcases lt_trichotomy w.1.chunkIdx w'.1.chunkIdx with hlt | heq | hgt
  · exact rows_le_of_chunkIdx_lt hsorted hw hw' hlt
  · refine absurd ?_ hne
    cases hu : w.1
    cases hu' : w'.1
    simp_all
  · -- The later chunk does not start below the earlier one, so its key is larger.
    exfalso
    have hle := rows_le_of_chunkIdx_lt hsorted hw' hw hgt
    have hrows := hnonempty _ (mem_segmentWrites hw).2
    have hrows' := hnonempty _ (mem_segmentWrites hw').2
    obtain ⟨e, he, hmin⟩ := @SegmentView.exists_minCommitSeqNum_ofRows R V w.1 w.2 hrows
    obtain ⟨f, hf, hmin'⟩ := @SegmentView.exists_minCommitSeqNum_ofRows R V w'.1 w'.2 hrows'
    have hseq : f.commitSeqNum ≤ e.commitSeqNum := by
      rcases Prod.Lex.toLex_le_toLex.mp (hle f hf e he) with h | h
      · exact le_of_lt h
      · exact le_of_eq h.1
    rcases Prod.Lex.toLex_le_toLex.mp hkey with h | h
    · simp only at h
      omega
    · have hidx : w.1.chunkIdx ≤ w'.1.chunkIdx := h.2
      omega

theorem outputOrdering_of_mem_persistWrites (hw : w ∈ persistWrites cfg target upserts deletes) :
    OutputOrdering w.2 := by
  rcases List.mem_append.mp hw with hw | hw <;>
    exact (List.pairwise_flatten.mp (outputOrdering_flatten_chunkPersistBatch cfg _)).1 _ (mem_segmentWrites hw).2

/-- Two segments one Persist writes to one log are in order. -/
theorem inListingOrder_persistWrites (hw : w ∈ persistWrites cfg target upserts deletes)
    (hw' : w' ∈ persistWrites cfg target upserts deletes) (hne : w.1 ≠ w'.1)
    (hkind : w.1.parent.logKind = w'.1.parent.logKind) :
    InListingOrder (SegmentView.ofRows w.1 w.2) (SegmentView.ofRows w'.1 w'.2) := by
  rcases List.mem_append.mp hw with h | h <;> rcases List.mem_append.mp hw' with h' | h'
  · exact inListingOrder_segmentWrites (outputOrdering_flatten_chunkPersistBatch cfg upserts)
      (fun c hc => ne_nil_of_mem_chunkPersistBatch c hc) h h' hne
  · rw [(mem_segmentWrites h).1, (mem_segmentWrites h').1] at hkind
    cases hkind
  · rw [(mem_segmentWrites h).1, (mem_segmentWrites h').1] at hkind
    cases hkind
  · exact inListingOrder_segmentWrites (outputOrdering_flatten_chunkPersistBatch cfg deletes)
      (fun c hc => ne_nil_of_mem_chunkPersistBatch c hc) h h' hne

end Chunks

/-! ## Steps and runs -/

/-- A Persist reads no row that is persisted already. -/
def RereadsNothing (s : Store R V) : TableOp R V → Prop
  | .op (.persist requestTarget step1Now) =>
      ∀ e ∈ s.hot, e.commitMicros < satSucc (effectiveTarget requestTarget step1Now) → ∀ v ∈ s.views, e ∉ v.rows
  | _ => True

section Runs

variable [DecidableEq R]

instance [DecidableEq V] (s : Store R V) : ∀ op, Decidable (RereadsNothing s op)
  | .op (.persist _ _)  => inferInstanceAs (Decidable (∀ e ∈ _, _ → ∀ v ∈ _, _))
  | .op (.commit _ _)   => isTrue trivial
  | .op (.snapshot _ _) => isTrue trivial
  | .op .purge          => isTrue trivial
  | .compact _ _        => isTrue trivial

variable {cfg : PersistConfig R V} {s s' : Store R V} {H : History R V}

omit [DecidableEq R] in
/-- A segment of rows not persisted yet comes after every older one: a row at or below a persisted one is persisted. -/
theorem Inv.inListingOrder_of_rereadsNothing (hinv : Inv s H) {requestTarget : Option Int} {step1Now : Int}
    (hfresh : RereadsNothing s (.op (.persist requestTarget step1Now))) {w : SegmentUuid × List (LogEntry R V)}
    (hw : w ∈ persistWrites cfg (effectiveTarget requestTarget step1Now)
      (s.readCommitted .upsertLog (effectiveTarget requestTarget step1Now))
      (s.readCommitted .deleteLog (effectiveTarget requestTarget step1Now))) {x : SegmentView R V} (hx : x ∈ s.views) :
    InListingOrder x (SegmentView.ofRows w.1 w.2) ∧ InListingOrder (SegmentView.ofRows w.1 w.2) x := by
  have hlt : ∀ f ∈ x.rows, ∀ e ∈ w.2, f.commitSeqNum < e.commitSeqNum := by
    intro f hf e he
    obtain ⟨hhot, htarget⟩ := Store.mem_readCommitted_append.mp (exists_mem_persistWrites_iff.mp ⟨w, hw, he⟩)
    have heH := (hinv.mem_hot.mp hhot).1
    have hfH := (hinv.stored x hx f hf).1
    obtain ⟨p, hp, hfp⟩ := (hinv.stored_iff f hfH).mpr ⟨x, hx, hf⟩
    by_contra hle
    have hmicros := (History.commitSeqNum_le_iff heH hfH).mp (not_lt.mp hle)
    obtain ⟨v, hv, hev⟩ := (hinv.stored_iff e heH).mp ⟨p, hp, hmicros.trans hfp⟩
    exact hfresh e hhot htarget v hv hev
  constructor
  · intro _ f hf e he
    exact Prod.Lex.toLex_le_toLex.mpr (.inl (hlt f hf e he))
  · -- The new segment starts above every row of the old one, so it is never listed before it.
    intro hkey
    obtain ⟨e, he, hmin⟩ :=
      @SegmentView.exists_minCommitSeqNum_ofRows R V w.1 w.2 (ne_nil_of_mem_persistWrites hw)
    obtain ⟨f, hf, hmin'⟩ := hinv.segments.exists_minCommitSeqNum hx
    have hseq := hlt f hf e he
    rcases Prod.Lex.toLex_le_toLex.mp hkey with h | h
    · have hlt' : (SegmentView.ofRows w.1 w.2).minCommitSeqNum < x.minCommitSeqNum := h
      omega
    · have heq' : (SegmentView.ofRows w.1 w.2).minCommitSeqNum = x.minCommitSeqNum := h.1
      omega

/-- The segments of a store: each sorted, and in order with the others. -/
structure Store.InOrder (s : Store R V) : Prop where
  sorted : s.RowsSorted
  pairs : s.PairsInOrder

omit [DecidableEq R] in
theorem Store.InOrder.of_views (h : s.InOrder) (hviews : s'.views = s.views) : s'.InOrder := by
  constructor
  · rw [RowsSorted, hviews]
    exact h.sorted
  · rw [PairsInOrder, hviews]
    exact h.pairs

omit [DecidableEq R] in
/-- **Persist** of rows not persisted yet appends in order. -/
theorem Inv.inOrder_persistLocked (hinv : Inv s H) (h : s.InOrder) {requestTarget : Option Int} {step1Now : Int}
    (hnc : NoClobber cfg s (.persist requestTarget step1Now))
    (hfresh : RereadsNothing s (.op (.persist requestTarget step1Now))) :
    (s.persistLocked cfg requestTarget step1Now).InOrder := by
  rcases s.persistLocked_cases cfg requestTarget step1Now with heq | ⟨persistedAt, seq, hgate, heq⟩
  · rwa [heq]
  rw [heq]
  have hnc := hnc (hgate ▸ rfl)
  constructor
  · intro v hv
    rw [(Store.writePersist_views hinv.segments.ok hnc).2, List.mem_append, List.mem_map] at hv
    rcases hv with hv | ⟨w, hw, rfl⟩
    · exact h.sorted v hv
    · exact outputOrdering_of_mem_persistWrites (List.mem_filter.mp hw).1
  · intro a ha b hb hne hkind
    rw [(Store.writePersist_views hinv.segments.ok hnc).2, List.mem_append, List.mem_map] at ha hb
    rcases ha with ha | ⟨w, hw, rfl⟩ <;> rcases hb with hb | ⟨w', hw', rfl⟩
    · exact h.pairs a ha b hb hne hkind
    · exact (hinv.inListingOrder_of_rereadsNothing hfresh (List.mem_filter.mp hw').1 ha).1
    · exact (hinv.inListingOrder_of_rereadsNothing hfresh (List.mem_filter.mp hw).1 hb).2
    · exact inListingOrder_persistWrites (List.mem_filter.mp hw).1 (List.mem_filter.mp hw').1 hne hkind

/-- **Step.** Only a Persist changes the views. -/
theorem TableInv.inOrder_step {op : TableOp R V} (hinv : TableInv s H) (hin : s.InOrder)
    (hnc : TableNoClobber cfg s op) (hfresh : RereadsNothing s op) (h : tableStep cfg s op = some s') : s'.InOrder := by
  cases op with
  | compact logKind inputs => exact hin.of_views (Store.views_compactOneScope h hinv.segments.ok hinv.uuids)
  | op o =>
      cases o with
      | persist requestTarget step1Now =>
          cases h
          exact hinv.toInv.inOrder_persistLocked hin hnc hfresh
      | commit micros rows =>
          rcases Store.commitTx_cases h with rfl | ⟨-, -, rfl⟩
          · exact hin
          · exact hin.of_views rfl
      | snapshot snapshottedAt indexes =>
          cases h
          refine hin.of_views ?_
          unfold Store.snapshotLocked
          split <;> rfl
      | purge =>
          cases h
          refine hin.of_views ?_
          unfold Store.purgeLocked
          split <;> rfl

/-- An operation with the row sizes and the segment size cap in force when it runs. -/
def configuredStep (s : Store R V) (o : PersistConfig R V × TableOp R V) : Option (Store R V) := tableStep o.1 s o.2

/-- **The declared output ordering over a run.** In every state of a run whose Persists do not clobber and read only
    rows that are not persisted yet, every plan has ordered streams. -/
theorem streamsOrdered_run (ops : List (PersistConfig R V × TableOp R V)) (s : Store R V)
    (hmeets : Runs.Meets configuredStep (fun s o => TableNoClobber o.1 s o.2 ∧ RereadsNothing s o.2) Store.init ops)
    (hrun : Runs.run configuredStep Store.init ops = some s) : s.StreamsOrdered := by
  have hinit : (∃ H, TableInv (Store.init : Store R V) H) ∧ (Store.init : Store R V).InOrder := by
    refine ⟨⟨History.empty, Inv.init, List.nodup_nil⟩, ?_, ?_⟩
    · exact fun v hv => absurd hv List.not_mem_nil
    · exact fun v hv => absurd hv List.not_mem_nil
  have hstep : ∀ (s : Store R V) (o : PersistConfig R V × TableOp R V) (s' : Store R V),
      (∃ H, TableInv s H) ∧ s.InOrder → TableNoClobber o.1 s o.2 ∧ RereadsNothing s o.2 →
      configuredStep s o = some s' → (∃ H, TableInv s' H) ∧ s'.InOrder := by
    rintro s o s' ⟨⟨H, htable⟩, hin⟩ ⟨hnc, hfresh⟩ h
    exact ⟨⟨_, htable.step hnc h⟩, htable.inOrder_step hin hnc hfresh h⟩
  obtain ⟨⟨H, htable⟩, hin⟩ := Runs.invariant_of_step hstep hinit hmeets hrun
  exact Store.streamsOrdered hin.pairs htable.segments htable.uuids hin.sorted

end Runs

/-! ## Two Persists with and without a Purge between them -/

section Instances

/-- Two rows are upserted and persisted, then a third: the second Persist writes the first two again. -/
def persistTwice : List (PersistConfig Nat Nat × TableOp Nat Nat) :=
  [.op (.commit 10 (.single 1 (.upsert 1) 0)), .op (.commit 20 (.single 2 (.upsert 2) 0)), .op (.persist none 25),
    .op (.commit 30 (.single 3 (.upsert 3) 0)), .op (.persist none 35)].map (fun op => (oneByteRows, op))

/-- The declared ordering is not the order of the stream: rows 1 and 2 come a second time after rows 1 and 2. -/
theorem streamsOrdered_fails :
    ∃ s, Runs.run configuredStep Store.init persistTwice = some s ∧ ¬ s.StreamsOrdered := by
  have hend : (Runs.run configuredStep Store.init persistTwice).map (fun s =>
      match (s.planListing (.latestSeq 2) (s.plannedSegments (.latestSeq 2))).coldStorage.bind
          ColdStoragePlan.persist with
      | some p => decide (¬OutputOrdering (s.persistStream p.upsertSegments))
      | none   => false) = some true := by decide +kernel
  obtain ⟨s, hrun, hs⟩ := Option.map_eq_some_iff.mp hend
  refine ⟨s, hrun, ?_⟩
  intro hstreams
  split at hs
  · rename_i p hp
    exact of_decide_eq_true hs (hstreams (.latestSeq 2) _ listing_plannedSegments p hp).1
  · cases hs

/-- The same with a Snapshot and a Purge after the first Persist, and a smaller cap for the second. -/
def purgeBetween : List (PersistConfig Nat Nat × TableOp Nat Nat) :=
  [(oneByteRows, .op (.commit 10 (.single 1 (.upsert 1) 0))), (oneByteRows, .op (.commit 20 (.single 2 (.upsert 2) 0))),
    (oneByteRows, .op (.persist none 25)), (oneByteRows, .op (.snapshot none [])), (oneByteRows, .op .purge),
    (oneByteRows, .op (.commit 30 (.single 3 (.upsert 3) 0))), (⟨fun _ => 1, 1, none⟩, .op (.persist none 35))]

theorem streamsOrdered_purgeBetween :
    ∃ s, Runs.run configuredStep Store.init purgeBetween = some s ∧ s.StreamsOrdered := by
  have hend : (Runs.run configuredStep Store.init purgeBetween).isSome = true := by decide +kernel
  obtain ⟨s, hrun⟩ := Option.isSome_iff_exists.mp hend
  exact ⟨s, hrun, streamsOrdered_run purgeBetween s (by decide +kernel) hrun⟩

end Instances

end Penca
