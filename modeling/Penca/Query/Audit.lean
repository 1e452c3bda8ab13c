import Mathlib.Data.List.Flatten
import Penca.Lifecycle.Compact
import Penca.Query.Plan

/-!
# `Query.Audit` — the audit streams

`audit_upserts` and `audit_deletes` concatenate a cold arm (the persist segments below `hot_min`) and a hot
arm (from `hot_min` on) without de-duplication. What an audit reports is what its sources hold of its window,
as often as they hold it (`BranchInv.perm_auditData`): the arms are disjoint and together they hold every
entry, but the cold arm repeats an entry that two segments store, which happens when it is still hot at the
second Persist after its commit.

## Contents
- **The request and the plan** of `plan_audit`, and the two arms.
- **The arms** in terms of what the segments and the hot logs hold.
- **Multiplicity**: an audit reports nothing twice if and only if no entry is stored twice.
- **Runs** whose Persists find only unpersisted rows store nothing twice.

Retention and the transaction metadata columns are not modelled; audits of forked branches are in
`Fork.Audit`.
-/

namespace Penca

variable {R V : Type} [DecidableEq R]

/-! ## The request and the plan -/

/-- `audit_committed_axes`: a half-open window on one axis. No window at all is the clock window open at
    both ends. -/
inductive AuditWindow where
  | commitMicros (min max : Option Int)
  | commitSeqNum (min max : Option Int)
  deriving DecidableEq, Repr

namespace AuditWindow

/-- `timestamp_bounds` of the clock window. -/
def userFrom : AuditWindow → Option Int
  | .commitMicros min _ => min
  | .commitSeqNum _ _   => none

def userTo : AuditWindow → Option Int
  | .commitMicros _ max => max
  | .commitSeqNum _ _   => none

def seqFrom : AuditWindow → Option Int
  | .commitMicros _ _   => none
  | .commitSeqNum min _ => min

def seqTo : AuditWindow → Option Int
  | .commitMicros _ _   => none
  | .commitSeqNum _ max => max

end AuditWindow

/-- `AuditDataRequest`: the window and the optional restriction to some rows. -/
structure AuditDataRequest (R : Type) where
  committed : AuditWindow
  rowUuids : Option (List R)
  deriving DecidableEq, Repr

/-- The conditions of `build_cold_audit_sql`, shared by the hot query. -/
def auditSelects (fromMicros toMicros fromSeq toSeq : Option Int) (rowUuids : Option (List R))
    (e : LogEntry R V) : Bool :=
  fromMicros.all (fun v => decide (v ≤ e.commitMicros)) &&
    toMicros.all (fun v => decide (e.commitMicros < v)) &&
      fromSeq.all (fun v => decide (v ≤ e.commitSeqNum)) &&
        toSeq.all (fun v => decide (e.commitSeqNum < v)) &&
          rowUuids.all (fun ids => decide (e.rowUuid ∈ ids))

/-- What the request asks for. -/
def AuditDataRequest.selects (req : AuditDataRequest R) : LogEntry R V → Bool :=
  auditSelects req.committed.userFrom req.committed.userTo req.committed.seqFrom req.committed.seqTo
    req.rowUuids

/-- `AuditPlan`. -/
structure AuditPlan (R : Type) where
  coldFrom : Option Int
  coldTo : Option Int
  hotFrom : Option Int
  hotTo : Option Int
  seqFrom : Option Int
  seqTo : Option Int
  coldUpsertSegments : List PersistSegment
  coldDeleteSegments : List PersistSegment
  rowUuids : Option (List R)
  deriving DecidableEq, Repr

/-- `cold_to`: the window's end, capped at `hot_min`. -/
def auditColdTo (userTo : Option Int) (hotMin : Int) : Int :=
  match userTo with
  | some t => min t hotMin
  | none   => hotMin

/-- `hot_from`: the window's start, raised to `hot_min`. -/
def auditHotFrom (userFrom : Option Int) (hotMin : Int) : Option Int :=
  match userFrom with
  | some f => some (max f hotMin)
  | none   => if hotMin > 0 then some hotMin else none

/-- `plan_audit`. Before the first Persist the segment fetch is skipped. -/
def Store.planAudit (s : Store R V) (req : AuditDataRequest R) : AuditPlan R :=
  let userFrom := req.committed.userFrom
  let userTo := req.committed.userTo
  let hotMin := s.hotMin
  let segments :=
    if hotMin = 0 then []
    else s.segmentsForWindow userFrom (some (auditColdTo userTo hotMin)) none
  { coldFrom := if hotMin = 0 then none else userFrom
    coldTo := if hotMin = 0 then none else some (auditColdTo userTo hotMin)
    hotFrom := auditHotFrom userFrom hotMin
    hotTo := userTo
    seqFrom := req.committed.seqFrom
    seqTo := req.committed.seqTo
    coldUpsertSegments := segments.filter (fun seg => seg.logKind = .upsertLog)
    coldDeleteSegments := segments.filter (fun seg => seg.logKind = .deleteLog)
    rowUuids := req.rowUuids }

/-- The segments of one stream. -/
def AuditPlan.coldSegments (plan : AuditPlan R) : LogKind → List PersistSegment
  | .upsertLog => plan.coldUpsertSegments
  | .deleteLog => plan.coldDeleteSegments

/-- `cold_upsert_audit_batches` / `cold_delete_audit_batches`, ordered by `commit_seq_num`. -/
def Store.auditCold (s : Store R V) (logKind : LogKind) (plan : AuditPlan R) : List (LogEntry R V) :=
  (((plan.coldSegments logKind).flatMap s.readSegment).filter
    (auditSelects plan.coldFrom plan.coldTo plan.seqFrom plan.seqTo plan.rowUuids)).insertionSort
      (fun e e' => e.commitSeqNum ≤ e'.commitSeqNum)

/-- `audit_upserts_stream` / `audit_deletes_stream`. -/
def Store.auditHot (s : Store R V) (logKind : LogKind) (plan : AuditPlan R) : List (LogEntry R V) :=
  s.hot.filter (fun e => decide (e.kind = logKind) &&
    auditSelects plan.hotFrom plan.hotTo plan.seqFrom plan.seqTo plan.rowUuids e)

/-- `audit_upserts` / `audit_deletes`: plan, then the cold arm followed by the hot arm. -/
def Store.auditData (s : Store R V) (logKind : LogKind) (req : AuditDataRequest R) : List (LogEntry R V) :=
  s.auditCold logKind (s.planAudit req) ++ s.auditHot logKind (s.planAudit req)

/-- The audit reports every committed change of the window exactly once, and nothing else. -/
def Store.AuditsOnce (s : Store R V) (H : History R V) (logKind : LogKind) (req : AuditDataRequest R) :
    Prop :=
  (s.auditData logKind req).Perm (H.entries.filter (fun e => decide (e.kind = logKind) && req.selects e))

/-- No entry is in two segments. -/
def Store.StoredOnce (s : Store R V) : Prop := (s.views.flatMap SegmentView.rows).Nodup

instance [DecidableEq V] (s : Store R V) (H : History R V) (logKind : LogKind) (req : AuditDataRequest R) :
    Decidable (s.AuditsOnce H logKind req) := inferInstanceAs (Decidable (List.Perm _ _))

instance [DecidableEq V] (s : Store R V) : Decidable s.StoredOnce :=
  inferInstanceAs (Decidable (List.Nodup _))

/-! ## The windows of the arms -/

section Selects

variable {userFrom userTo fromSeq toSeq : Option Int} {rowUuids : Option (List R)} {e : LogEntry R V}

/-- The cold window is the part of the request below `hot_min`. -/
theorem auditSelects_auditColdTo {hotMin : Int} :
    auditSelects userFrom (some (auditColdTo userTo hotMin)) fromSeq toSeq rowUuids e = true ↔
      auditSelects userFrom userTo fromSeq toSeq rowUuids e = true ∧ e.commitMicros < hotMin := by
  have hto : (some (auditColdTo userTo hotMin)).all (fun v => decide (e.commitMicros < v)) = true ↔
      userTo.all (fun v => decide (e.commitMicros < v)) = true ∧ e.commitMicros < hotMin := by
    cases userTo with
    | none => simp [auditColdTo]
    | some t => simp [auditColdTo]
  simp only [auditSelects, Bool.and_eq_true, hto]
  tauto

/-- The hot window is the part of the request from `hot_min` on. -/
theorem auditSelects_auditHotFrom {hotMin : Int} (hpos : 0 ≤ e.commitMicros) :
    auditSelects (auditHotFrom userFrom hotMin) userTo fromSeq toSeq rowUuids e = true ↔
      auditSelects userFrom userTo fromSeq toSeq rowUuids e = true ∧ hotMin ≤ e.commitMicros := by
  have hfrom : (auditHotFrom userFrom hotMin).all (fun v => decide (v ≤ e.commitMicros)) = true ↔
      userFrom.all (fun v => decide (v ≤ e.commitMicros)) = true ∧ hotMin ≤ e.commitMicros := by
    cases userFrom with
    | none =>
        by_cases hmin : hotMin > 0
        · simp [auditHotFrom, hmin]
        · simp only [auditHotFrom, hmin, if_false, Option.all_none, true_and, true_iff]
          omega
    | some f => simp [auditHotFrom]
  simp only [auditSelects, Bool.and_eq_true, hfrom]
  tauto

end Selects

/-! ## The arms -/

section Arms

variable {s : Store R V} {logKind : LogKind}

theorem flatMap_filter_eq {α β : Type} {l : List α} {p : α → Bool} {f g : α → List β}
    (h : ∀ x ∈ l, g x = if p x then f x else []) : (l.filter p).flatMap f = l.flatMap g := by
  induction l with
  | nil => rfl
  | cons x l ih =>
      rw [List.flatMap_cons, h x List.mem_cons_self, ← ih (fun y hy => h y (List.mem_cons_of_mem _ hy))]
      by_cases hp : p x = true <;> simp [hp]

omit [DecidableEq R] in
/-- A window fetch returns the overlapping segments, each once. -/
theorem Store.perm_segmentsForWindow (hok : s.SegmentsOk) (fromMicros toMicros commitSeqUpper : Option Int) :
    (s.segmentsForWindow fromMicros toMicros commitSeqUpper).Perm (s.persistSegments.filter (fun seg =>
      (s.view seg).overlapsWindow fromMicros toMicros commitSeqUpper)) := by
  refine (List.perm_insertionSort _ _).trans (List.Perm.of_eq (List.filter_congr (fun seg hseg => ?_)))
  have hrows : (seg.rowCount != 0) = true := by
    have hne := hok.nonempty (s.view seg) (List.mem_map_of_mem hseg)
    rw [bne_iff_ne, hok.counted seg hseg]
    simpa [view] using hne
  have hany : s.tablePersists.any (fun p => p.uuid = seg.uuid.parent) = true := by
    simpa using hok.parent seg hseg
  rw [hok.committed seg hseg, hany, hrows, Bool.and_true]
  rfl

omit [DecidableEq R] in
/-- A segment with a row of the window is fetched. -/
theorem SegmentView.Bounded.overlapsWindow {v : SegmentView R V} (hb : v.Bounded) {e : LogEntry R V}
    (he : e ∈ v.read) {fromMicros toMicros commitSeqUpper : Option Int}
    (hfrom : ∀ f, fromMicros = some f → f ≤ e.commitMicros)
    (hto : ∀ t, toMicros = some t → e.commitMicros < t)
    (hseq : ∀ n, commitSeqUpper = some n → e.commitSeqNum ≤ n) :
    v.overlapsWindow fromMicros toMicros commitSeqUpper = true := by
  have hmicros := hb.micros e he
  have hmin := hb.seq e he
  have hrange := hb.inRange
  simp only [SegmentView.overlapsWindow, Bool.and_eq_true, Option.all_eq_true, decide_eq_true_eq]
  refine ⟨⟨fun f hf => ?_, fun t ht => ?_⟩, fun n hn => ?_⟩
  · have := hfrom f hf
    unfold satPred i64Min
    omega
  · have := hto t ht
    unfold satPred i64Min
    omega
  · have := hseq n hn
    omega

omit [DecidableEq R] in
/-- **An arm.** The segments fetched for a window, filtered row by row, hold what all segments hold of it: the
    fetch skips nothing and repeats nothing. -/
theorem Store.perm_windowArm (hok : s.SegmentsOk) (hbounded : ∀ v ∈ s.views, v.Bounded)
    (hkind : ∀ v ∈ s.views, ∀ e ∈ v.read, e.kind = v.uuid.parent.logKind)
    {fromMicros toMicros commitSeqUpper : Option Int} {sel : LogEntry R V → Bool}
    (hsel : ∀ e, sel e = true → (∀ f, fromMicros = some f → f ≤ e.commitMicros) ∧
      (∀ t, toMicros = some t → e.commitMicros < t) ∧ ∀ n, commitSeqUpper = some n → e.commitSeqNum ≤ n) :
    ((((s.segmentsForWindow fromMicros toMicros commitSeqUpper).filter
      (fun seg => seg.logKind = logKind)).flatMap s.readSegment).filter sel).Perm
      ((s.views.flatMap SegmentView.read).filter (fun e => decide (e.kind = logKind) && sel e)) := by
  refine (((s.perm_segmentsForWindow hok fromMicros toMicros commitSeqUpper).filter _).flatMap_right
    s.readSegment).filter sel |>.trans (List.Perm.of_eq ?_)
  rw [List.filter_flatMap, List.filter_flatMap, views, List.flatMap_map, List.filter_filter]
  refine flatMap_filter_eq (fun seg hseg => ?_)
  have hv : s.view seg ∈ s.views := List.mem_map_of_mem hseg
  have hentries : ∀ e ∈ s.readSegment seg, decide (e.kind = logKind) = decide (seg.logKind = logKind) := by
    intro e he
    rw [hkind (s.view seg) hv e he]
    rfl
  have hrow : (s.readSegment seg).filter (fun e => decide (e.kind = logKind) && sel e) =
      (s.readSegment seg).filter (fun e => decide (seg.logKind = logKind) && sel e) :=
    List.filter_congr (fun e he => by rw [hentries e he])
  show (s.readSegment seg).filter _ = _
  rw [hrow]
  by_cases hk : seg.logKind = logKind
  · by_cases hover : (s.view seg).overlapsWindow fromMicros toMicros commitSeqUpper = true
    · simp [hk, hover]
    · simp only [hk, hover, decide_true, Bool.true_and, Bool.and_false, Bool.false_eq_true, if_false,
        List.filter_eq_nil_iff]
      intro e he hse
      obtain ⟨hfrom, hto, hseq⟩ := hsel e hse
      exact hover ((hbounded _ hv).overlapsWindow he hfrom hto hseq)
  · simp [hk]

omit [DecidableEq R] in
theorem auditSelects_window {fromMicros toMicros fromSeq toSeq : Option Int} {rowUuids : Option (List R)}
    [DecidableEq R] {e : LogEntry R V} (h : auditSelects fromMicros toMicros fromSeq toSeq rowUuids e = true) :
    (∀ f, fromMicros = some f → f ≤ e.commitMicros) ∧ (∀ t, toMicros = some t → e.commitMicros < t) ∧
      ∀ t, toSeq = some t → e.commitSeqNum < t := by
  simp only [auditSelects, Bool.and_eq_true, Option.all_eq_true, decide_eq_true_eq] at h
  exact ⟨h.1.1.1.1, h.1.1.1.2, h.1.2⟩

variable {L : BranchLog R V} {floor : Option Int} (hinv : BranchInv s L floor) (req : AuditDataRequest R)
include hinv

omit [DecidableEq R] in
theorem BranchInv.lt_hotMin_of_read {v : SegmentView R V} (hv : v ∈ s.views) {e : LogEntry R V}
    (he : e ∈ v.read) : e.commitMicros < s.hotMin := by
  obtain ⟨-, p, hp, hle⟩ := hinv.stored v hv e he
  rw [Store.hotMin_eq hp]
  omega

/-- **The cold arm** reports the stored entries of the window, as often as they are stored. -/
theorem BranchInv.perm_auditCold :
    (s.auditCold logKind (s.planAudit req)).Perm
      ((s.views.flatMap SegmentView.read).filter (fun e => decide (e.kind = logKind) && req.selects e)) := by
  by_cases hmin : s.hotMin = 0
  · -- Without a watermark nothing is stored.
    have hnil : s.views.flatMap SegmentView.read = [] := by
      apply List.eq_nil_iff_forall_not_mem.mpr
      intro e he
      obtain ⟨v, hv, hev⟩ := List.mem_flatMap.mp he
      have hlt := hinv.lt_hotMin_of_read hv hev
      have hpos := (L.inRange e (hinv.stored v hv e hev).1.1).1
      omega
    have hcold : s.auditCold logKind (s.planAudit req) = [] := by
      cases logKind <;> simp [Store.auditCold, Store.planAudit, AuditPlan.coldSegments, hmin]
    rw [hnil, hcold, List.filter_nil]
  · have hplan : (s.planAudit req).coldSegments logKind =
        (s.segmentsForWindow req.committed.userFrom (some (auditColdTo req.committed.userTo s.hotMin)) none).filter
          (fun seg => seg.logKind = logKind) := by
      cases logKind <;> simp only [Store.planAudit, AuditPlan.coldSegments, hmin, if_false]
    have hto : (s.planAudit req).coldTo = some (auditColdTo req.committed.userTo s.hotMin) := if_neg hmin
    have hfrom : (s.planAudit req).coldFrom = req.committed.userFrom := if_neg hmin
    refine (List.perm_insertionSort _ _).trans ?_
    rw [hplan, hto, hfrom]
    refine (Store.perm_windowArm hinv.segments hinv.bounded (fun v hv e he => (hinv.stored v hv e he).1.2) ?_).trans
      (List.Perm.of_eq (List.filter_congr (fun e he => ?_)))
    · intro e he
      obtain ⟨hf, ht, -⟩ := auditSelects_window he
      exact ⟨hf, ht, fun n hn => absurd hn (by simp)⟩
    · obtain ⟨v, hv, hev⟩ := List.mem_flatMap.mp he
      have hlt := hinv.lt_hotMin_of_read hv hev
      congr 1
      rw [Bool.eq_iff_iff]
      exact auditSelects_auditColdTo.trans (and_iff_left hlt)

/-- **The hot arm** reports the hot entries of the window from `hot_min` on. -/
theorem BranchInv.auditHot_eq :
    s.auditHot logKind (s.planAudit req) = (s.hot.filter (fun e => decide (s.hotMin ≤ e.commitMicros))).filter
      (fun e => decide (e.kind = logKind) && req.selects e) := by
  rw [Store.auditHot, List.filter_filter]
  refine List.filter_congr (fun e he => ?_)
  have hpos := (L.inRange e ((hinv.mem_hot e).mp he).1).1
  have hsel : auditSelects (auditHotFrom req.committed.userFrom s.hotMin) req.committed.userTo
      req.committed.seqFrom req.committed.seqTo req.rowUuids e =
      (req.selects e && decide (s.hotMin ≤ e.commitMicros)) := by
    rw [Bool.eq_iff_iff, auditSelects_auditHotFrom hpos.le, Bool.and_eq_true, decide_eq_true_eq]
    rfl
  show (decide (e.kind = logKind) && auditSelects (auditHotFrom req.committed.userFrom s.hotMin)
    req.committed.userTo req.committed.seqFrom req.committed.seqTo req.rowUuids e) = _
  rw [hsel, Bool.and_assoc]

omit hinv in
/-- All that an audit draws from: the segments, and the hot entries from `hot_min` on. -/
def Store.auditSources (s : Store R V) : List (LogEntry R V) :=
  s.views.flatMap SegmentView.read ++ s.hot.filter (fun e => decide (s.hotMin ≤ e.commitMicros))

/-- **An audit** reports what its sources hold of its window, as often as they hold it. -/
theorem BranchInv.perm_auditData :
    (s.auditData logKind req).Perm
      (s.auditSources.filter (fun e => decide (e.kind = logKind) && req.selects e)) := by
  rw [Store.auditData, Store.auditSources, List.filter_append, ← hinv.auditHot_eq req]
  exact (hinv.perm_auditCold req).append_right _

omit [DecidableEq R] in
/-- An entry that is not persisted is hot, from `hot_min` on. -/
theorem BranchInv.mem_hot_of_not_persisted {e : LogEntry R V} (he : e ∈ L.entries)
    (hpers : ¬ s.PersistedEntry e) : e ∈ s.hot ∧ s.hotMin ≤ e.commitMicros := by
  constructor
  · by_contra hgone
    exact hpers (hinv.persisted_of_not_mem_hot he hgone)
  · by_contra hlt
    cases hp : s.persistWatermark with
    | none =>
        have hpos := (L.inRange e he).1
        have hmin : s.hotMin = 0 := by simp [Store.hotMin, hp]
        omega
    | some p =>
        rw [Store.hotMin_eq hp] at hlt
        exact hpers ⟨p, hp, by omega⟩

end Arms

/-! ## Multiplicity -/

section Multiplicity

omit [DecidableEq R] in
/-- A list repeats nothing iff its upserts and its deletes do not. -/
theorem nodup_of_filter_kind {l : List (LogEntry R V)}
    (h : ∀ logKind, (l.filter (fun e => decide (e.kind = logKind))).Nodup) : l.Nodup := by
  have hdels : l.filter (fun e => decide (e.kind = .deleteLog)) =
      l.filter (fun e => !decide (e.kind = .upsertLog)) := by
    refine List.filter_congr (fun e _ => ?_)
    cases e.kind <;> rfl
  have hsplit := List.filter_append_perm (fun e : LogEntry R V => decide (e.kind = .upsertLog)) l
  rw [← hsplit.nodup_iff, ← hdels]
  refine List.nodup_append.mpr ⟨h .upsertLog, h .deleteLog, ?_⟩
  rintro e hups _ hdels rfl
  have hkind := of_decide_eq_true (List.mem_filter.mp hups).2
  rw [of_decide_eq_true (List.mem_filter.mp hdels).2] at hkind
  cases hkind

/-- **Sources of all audits.** If the sources hold what was committed, then the audits of all windows report it
    exactly once if and only if the sources repeat nothing. -/
theorem forall_perm_filter_iff {sources committed : List (LogEntry R V)} (hnodup : committed.Nodup)
    (hmem : ∀ e, e ∈ sources ↔ e ∈ committed) :
    (∀ (logKind : LogKind) (req : AuditDataRequest R),
      (sources.filter (fun e => decide (e.kind = logKind) && req.selects e)).Perm
        (committed.filter (fun e => decide (e.kind = logKind) && req.selects e))) ↔ sources.Nodup := by
  constructor
  · intro h
    refine nodup_of_filter_kind (fun logKind => ?_)
    have hall := (h logKind ⟨.commitMicros none none, none⟩).nodup_iff.mpr (hnodup.filter _)
    have hevery : ∀ e : LogEntry R V, (⟨.commitMicros none none, none⟩ : AuditDataRequest R).selects e = true :=
      fun _ => rfl
    simpa only [hevery, Bool.and_true] using hall
  · intro h logKind req
    refine (List.perm_ext_iff_of_nodup (h.filter _) (hnodup.filter _)).mpr (fun e => ?_)
    rw [List.mem_filter, List.mem_filter, hmem]

variable {s : Store R V} {H : History R V} (hinv : Inv s H)
include hinv

omit [DecidableEq R] in
theorem Inv.mem_auditSources {e : LogEntry R V} : e ∈ s.auditSources ↔ e ∈ H.entries := by
  have hbranch := hinv.branch
  rw [Store.auditSources, List.mem_append, List.mem_flatMap, List.mem_filter]
  constructor
  · rintro (⟨v, hv, he⟩ | ⟨he, -⟩)
    · exact (hbranch.stored v hv e he).1.1
    · exact ((hbranch.mem_hot e).mp he).1
  · intro he
    by_cases hpers : s.PersistedEntry e
    · exact .inl (hbranch.complete e he hpers (fun f hf => absurd hf (by simp)))
    · obtain ⟨hhot, hle⟩ := hbranch.mem_hot_of_not_persisted he hpers
      exact .inr ⟨hhot, decide_eq_true hle⟩

omit [DecidableEq R] in
theorem Inv.nodup_auditSources_iff : s.auditSources.Nodup ↔ s.StoredOnce := by
  have hread : s.views.flatMap SegmentView.read = s.views.flatMap SegmentView.rows := by
    rw [List.flatMap_def, List.flatMap_def]
    exact congrArg List.flatten (List.map_congr_left (fun v hv => (hinv.segments.exact_of_mem hv).read_eq))
  rw [Store.auditSources, hread, List.nodup_append, Store.StoredOnce]
  refine and_iff_left ⟨?_, ?_⟩
  · rw [hinv.hot]
    exact (H.nodup_entries.filter _).filter _
  · rintro e he _ hhot rfl
    rw [← hread] at he
    obtain ⟨v, hv, hev⟩ := List.mem_flatMap.mp he
    have hlt := hinv.branch.lt_hotMin_of_read hv hev
    have hge := of_decide_eq_true (List.mem_filter.mp hhot).2
    omega

end Multiplicity

/-! ## Runs -/

/-- The guard under which Persist stores nothing a second time: every hot row is past the watermark, as
    after a Purge that follows the last Persist. -/
def PersistsNew (s : Store R V) : TableOp R V → Prop
  | .op (.persist _ _) => ∀ e ∈ s.hot, ∀ p ∈ s.persistWatermark, p < e.commitMicros
  | _                  => True

instance (s : Store R V) (op : TableOp R V) : Decidable (PersistsNew s op) := by
  unfold PersistsNew
  split <;> infer_instance

omit [DecidableEq R] in
/-- A Persist of rows past the watermark adds no entry that is stored already. -/
theorem Store.Persisted.storedOnce {s s' : Store R V} {persistedAt : Int} (hp : s.Persisted s' persistedAt)
    (honce : s.StoredOnce) (hhot : s.hot.Nodup)
    (hnew : ∀ v ∈ s.views, ∀ e ∈ v.rows, e ∉ s.hot) : s'.StoredOnce := by
  obtain ⟨ws, hperm, -, hviews⟩ := hp.views
  have hrows : ((ws.filter (fun w => !s.hasSegment w.1)).map
      (fun w => SegmentView.ofRows w.1 w.2)).flatMap SegmentView.rows =
      (ws.filter (fun w => !s.hasSegment w.1)).flatMap Prod.snd := by
    rw [List.flatMap_map]
    rfl
  have hsub : ((ws.filter (fun w => !s.hasSegment w.1)).flatMap Prod.snd).Sublist (ws.flatMap Prod.snd) :=
    List.filter_sublist.flatMap Prod.snd
  unfold StoredOnce
  rw [hviews, List.flatMap_append, hrows]
  refine List.nodup_append.mpr ⟨honce, (hperm.nodup_iff.mpr (hhot.filter _)).sublist hsub, ?_⟩
  rintro e hold _ he rfl
  obtain ⟨v, hv, hev⟩ := List.mem_flatMap.mp hold
  exact hnew v hv e hev (List.mem_filter.mp (hperm.mem_iff.mp (hsub.subset he))).1

theorem TableInv.storedOnce_step {cfg : PersistConfig R V} {s s' : Store R V} {H : History R V}
    {op : TableOp R V} (hinv : TableInv s H) (honce : s.StoredOnce) (hnc : TableNoClobber cfg s op)
    (hnew : PersistsNew s op) (h : tableStep cfg s op = some s') : s'.StoredOnce := by
  cases op with
  | compact logKind inputs =>
      rw [Store.StoredOnce, Store.views_compactOneScope h hinv.segments.ok hinv.uuids]
      exact honce
  | op o =>
      cases o with
      | commit micros rows =>
          rcases hinv.toInv.commitTx_cases h with ⟨rfl, -⟩ | ⟨-, -, rfl⟩
          · exact honce
          · exact honce
      | snapshot snapshottedAt indexes =>
          cases h
          unfold Store.snapshotLocked
          split <;> exact honce
      | purge =>
          cases h
          unfold Store.purgeLocked
          split <;> exact honce
      | persist requestTarget step1Now =>
          cases h
          rcases Store.persistLocked_spec hinv.segments hinv.parents hnc with heq | ⟨persistedAt, hp⟩
          · rw [heq]
            exact honce
          · refine hp.storedOnce honce ?_ ?_
            · rw [hinv.hot]
              exact H.nodup_entries.filter _
            · intro v hv e he hhot
              obtain ⟨p, hwm, hle⟩ := (hinv.stored_iff e (hinv.stored v hv e he).1).mpr ⟨v, hv, he⟩
              have := hnew e hhot p hwm
              omega

/-- **A run whose Persists find only unpersisted rows in hot stores every entry once.** -/
theorem storedOnce_run {cfg : PersistConfig R V} {ops : List (TableOp R V)} {s : Store R V}
    (hmeets : Runs.Meets (tableStep cfg) (fun s op => TableNoClobber cfg s op ∧ PersistsNew s op)
      Store.init ops)
    (hrun : Runs.run (tableStep cfg) Store.init ops = some s) : s.StoredOnce := by
  have hinit : TableInv (Store.init : Store R V) History.empty ∧ (Store.init : Store R V).StoredOnce :=
    ⟨⟨Inv.init, List.nodup_nil⟩, List.nodup_nil⟩
  have hend : TableInv s (tableHistoryOf ops) ∧ s.StoredOnce := by
    refine Runs.simulation_of_step (R := fun s H => TableInv s H ∧ s.StoredOnce)
      (fun s H op s' hinv hguard h => ?_) hinit hmeets hrun
    exact ⟨hinv.1.step hguard.1 h, hinv.1.storedOnce_step hinv.2 hguard.1 hguard.2 h⟩
  exact hend.2

/-- **Audits.** After every run of commits, Persists that do not clobber, Snapshots, Purges and compactions,
    all audits of both logs report every committed change of their window exactly once if and only if no
    entry is stored twice. -/
theorem auditsOnce_iff_storedOnce {cfg : PersistConfig R V} {ops : List (TableOp R V)} {s : Store R V}
    (hmeets : Runs.Meets (tableStep cfg) (TableNoClobber cfg) Store.init ops)
    (hrun : Runs.run (tableStep cfg) Store.init ops = some s) :
    (∀ logKind req, s.AuditsOnce (tableHistoryOf ops) logKind req) ↔ s.StoredOnce := by
  have hinv := (tableInv_run hmeets hrun).toInv
  rw [← hinv.nodup_auditSources_iff,
    ← forall_perm_filter_iff (tableHistoryOf ops).nodup_entries (fun e => hinv.mem_auditSources)]
  refine forall_congr' (fun logKind => forall_congr' (fun req => ?_))
  have hperm : (s.auditData logKind req).Perm _ := hinv.branch.perm_auditData req
  exact ⟨fun h => hperm.symm.trans h, fun h => hperm.trans h⟩

/-- Two Persists with no Purge between them. -/
def persistedTwiceRun : List (TableOp Nat Nat) :=
  [.op (.commit 10 (.single 1 (.upsert 100) 0)), .op (.persist none 15),
    .op (.commit 20 (.single 2 (.upsert 200) 1)), .op (.persist none 25)]

/-- The first upsert is in the segments of both Persists, and the audit reports it twice. -/
theorem persistedTwiceRun_not_auditsOnce :
    Runs.Meets (tableStep oneByteRows) (TableNoClobber oneByteRows) Store.init persistedTwiceRun ∧
      ∃ s, Runs.run (tableStep oneByteRows) Store.init persistedTwiceRun = some s ∧
        ¬ s.AuditsOnce (tableHistoryOf persistedTwiceRun) .upsertLog ⟨.commitMicros none none, none⟩ := by
  refine ⟨by decide +kernel, ?_⟩
  have hend : (Runs.run (tableStep oneByteRows) Store.init persistedTwiceRun).map (fun s =>
      decide (¬ s.AuditsOnce (tableHistoryOf persistedTwiceRun) .upsertLog
        ⟨.commitMicros none none, none⟩)) = some true := by decide +kernel
  obtain ⟨s, hrun, hend⟩ := Option.map_eq_some_iff.mp hend
  exact ⟨s, hrun, of_decide_eq_true hend⟩

/-- Snapshot and Purge between two Persists, then a merge of the two upsert segments. -/
def purgedBetweenRun : List (TableOp Nat Nat) :=
  [.op (.commit 10 (.single 1 (.upsert 100) 0)), .op (.persist none 15), .op (.snapshot none []), .op .purge,
    .op (.commit 20 (.single 2 (.upsert 200) 1)), .op (.persist none 25),
    .compact .upsertLog [
      writtenSegment ⟨⟨15, .upsertLog⟩, 0⟩ [(⟨1, .upsert 100, 0, 0, 10⟩ : LogEntry Nat Nat)],
      writtenSegment ⟨⟨25, .upsertLog⟩, 0⟩ [(⟨2, .upsert 200, 1, 1, 20⟩ : LogEntry Nat Nat)]]]

theorem purgedBetweenRun_auditsOnce :
    ∃ s, Runs.run (tableStep oneByteRows) Store.init purgedBetweenRun = some s ∧ s.mergedFiles = 1 ∧
      ∀ logKind req, s.AuditsOnce (tableHistoryOf purgedBetweenRun) logKind req := by
  have hmeets : Runs.Meets (tableStep oneByteRows) (TableNoClobber oneByteRows) Store.init
      purgedBetweenRun := by decide +kernel
  have hend : (Runs.run (tableStep oneByteRows) Store.init purgedBetweenRun).map (fun s =>
      decide (s.mergedFiles = 1 ∧ s.StoredOnce)) = some true := by decide +kernel
  obtain ⟨s, hrun, hend⟩ := Option.map_eq_some_iff.mp hend
  obtain ⟨hmerged, honce⟩ := of_decide_eq_true hend
  exact ⟨s, hrun, hmerged, (auditsOnce_iff_storedOnce hmeets hrun).mpr honce⟩

theorem purgedBetweenRun_storedOnce :
    ∃ s, Runs.run (tableStep oneByteRows) Store.init purgedBetweenRun = some s ∧ s.StoredOnce := by
  obtain ⟨s, hrun⟩ := Option.isSome_iff_exists.mp
    (by decide +kernel : (Runs.run (tableStep oneByteRows) Store.init purgedBetweenRun).isSome)
  exact ⟨s, hrun, storedOnce_run (by decide +kernel) hrun⟩

end Penca
