import Penca.Fork.Read
import Penca.Lifecycle.Rewrites
import Penca.Query.Audit

/-!
# `Fork.Audit` — audits of a forked branch

An audit of a child draws from three sources: its own segments (the copies of the fork included), its hot logs,
and a base arm, the parent's segments up to the fork. The base arm stops where the child's copies begin
(`inherited_own_arm_floor`), and the copies are an end of the parent's log (`Lifecycle.Rewrites`), so every
inherited entry comes from one of the two.

- The child keeps, through everything it does later, that its segments hold exactly the inherited entries from
  the floor on (`AuditedChild`).
- **Main result** (`forkedAudits_iff`): all audits of the child report every inherited and every own entry of
  their window exactly once, and nothing else, if and only if no segment table stores an entry twice and,
  before the child's first Persist, there is nothing to inherit: without a `hot_min` the base arm is not cut to
  the window.
-/

namespace Penca

variable {R V : Type} [DecidableEq R]

/-! ## The plan -/

/-- `inherited_own_arm_floor`: where the child's copied segments begin. -/
def Store.inheritedOwnArmFloor (s : Store R V) (forkCommitSeqNum : Int) : Option Int :=
  ((s.persistSegments.filter (fun seg =>
    seg.committed && decide (seg.minCommitSeqNum ≤ forkCommitSeqNum))).map PersistSegment.minTxCommitMicros).min?

/-- `base_audit_seq_cap`. -/
def baseAuditSeqCap (auditSeqTo : Option Int) (forkCommitSeqNum : Int) : Int :=
  (auditSeqTo.map (fun upper => min (satSucc forkCommitSeqNum) upper)).getD (satSucc forkCommitSeqNum)

/-- `AuditPlan` of a forked branch: the plan of its own arms and the base arm. -/
structure ForkedAuditPlan (R : Type) where
  own : AuditPlan R
  baseColdUpsertSegments : List PersistSegment
  baseColdDeleteSegments : List PersistSegment
  baseSeqTo : Option Int
  baseColdTo : Option Int

/-- `base_cold_to`. -/
def baseColdTo (coldTo ownArmFloor : Option Int) : Option Int :=
  match ownArmFloor with
  | some floor => some ((coldTo.map (fun t => min t floor)).getD floor)
  | none       => coldTo

/-- `plan_audit` on a forked branch. -/
def ForkedBranch.planAudit (b : ForkedBranch R V) (req : AuditDataRequest R) : ForkedAuditPlan R :=
  let own := b.child.planAudit req
  let baseTo := baseColdTo own.coldTo (b.child.inheritedOwnArmFloor b.fork.commitSeqNum)
  let segments := b.parent.segmentsForWindow own.coldFrom baseTo (some b.fork.commitSeqNum)
  { own := own
    baseColdUpsertSegments := segments.filter (fun seg => seg.logKind = .upsertLog)
    baseColdDeleteSegments := segments.filter (fun seg => seg.logKind = .deleteLog)
    baseSeqTo := some (baseAuditSeqCap own.seqTo b.fork.commitSeqNum)
    baseColdTo := baseTo }

/-- The base segments of one stream. -/
def ForkedAuditPlan.baseSegments (plan : ForkedAuditPlan R) : LogKind → List PersistSegment
  | .upsertLog => plan.baseColdUpsertSegments
  | .deleteLog => plan.baseColdDeleteSegments

/-- The base arm of `audit_upserts` / `audit_deletes`. -/
def ForkedBranch.auditBase (b : ForkedBranch R V) (logKind : LogKind) (plan : ForkedAuditPlan R) :
    List (LogEntry R V) :=
  (((plan.baseSegments logKind).flatMap b.parent.readSegment).filter
    (auditSelects plan.own.coldFrom plan.baseColdTo plan.own.seqFrom plan.baseSeqTo plan.own.rowUuids)).insertionSort
      (fun e e' => e.commitSeqNum ≤ e'.commitSeqNum)

/-- `audit_upserts` / `audit_deletes` on a forked branch: the own cold arm, the base arm, the hot arm. -/
def ForkedBranch.auditData (b : ForkedBranch R V) (logKind : LogKind) (req : AuditDataRequest R) :
    List (LogEntry R V) :=
  b.child.auditCold logKind (b.planAudit req).own ++ b.auditBase logKind (b.planAudit req) ++
    b.child.auditHot logKind (b.planAudit req).own

/-- The parent entries the base arm is there for: at or below the fork, before the copies begin. -/
def ForkedBranch.belowCopies (b : ForkedBranch R V) : List (LogEntry R V) :=
  (b.parent.views.flatMap SegmentView.read).filter (fun e =>
    decide (e.commitSeqNum ≤ b.fork.commitSeqNum) &&
      (b.child.inheritedOwnArmFloor b.fork.commitSeqNum).all (fun floor => decide (e.commitMicros < floor)))

/-- No source repeats an entry, and the base arm is empty as long as it is not cut to the window. -/
def ForkedBranch.AuditSourcesOk (b : ForkedBranch R V) : Prop :=
  (b.child.views.flatMap SegmentView.read).Nodup ∧ b.belowCopies.Nodup ∧
    (b.child.hotMin = 0 → b.belowCopies.isEmpty = true)

/-- The audit reports every entry of `committed` in the window exactly once, and nothing else. -/
def ForkedBranch.AuditsOnce (b : ForkedBranch R V) (committed : List (LogEntry R V)) (logKind : LogKind)
    (req : AuditDataRequest R) : Prop :=
  (b.auditData logKind req).Perm (committed.filter (fun e => decide (e.kind = logKind) && req.selects e))

instance [DecidableEq V] (b : ForkedBranch R V) : Decidable b.AuditSourcesOk :=
  inferInstanceAs (Decidable (_ ∧ _ ∧ (_ → _)))

instance [DecidableEq V] (b : ForkedBranch R V) (committed : List (LogEntry R V)) (logKind : LogKind)
    (req : AuditDataRequest R) : Decidable (b.AuditsOnce committed logKind req) :=
  inferInstanceAs (Decidable (List.Perm _ _))

/-! ## The base arm -/

section BaseArm

variable {userFrom userTo fromSeq toSeq floor : Option Int} {rowUuids : Option (List R)} {e : LogEntry R V}

omit [DecidableEq R] in
theorem lt_baseAuditSeqCap_iff {forkSeq : Int} (hseq : forkSeq < i64Max) :
    e.commitSeqNum < baseAuditSeqCap toSeq forkSeq ↔
      e.commitSeqNum ≤ forkSeq ∧ toSeq.all (fun v => decide (e.commitSeqNum < v)) = true := by
  have hsucc : satSucc forkSeq = forkSeq + 1 := by
    unfold satSucc
    omega
  cases toSeq with
  | none =>
      simp only [baseAuditSeqCap, hsucc, Option.map_none, Option.getD_none, Option.all_none, and_true]
      omega
  | some t =>
      simp only [baseAuditSeqCap, hsucc, Option.map_some, Option.getD_some, Option.all_some, decide_eq_true_eq]
      omega

omit [DecidableEq R] in
theorem all_baseColdTo_iff {coldTo : Int} :
    (baseColdTo (some coldTo) floor).all (fun v => decide (e.commitMicros < v)) = true ↔
      e.commitMicros < coldTo ∧ floor.all (fun f => decide (e.commitMicros < f)) = true := by
  cases floor <;> simp [baseColdTo]

/-- The window of the base arm is the part of the request up to the fork, below `hot_min` and the floor. -/
theorem auditSelects_base {hotMin forkSeq : Int} (hseq : forkSeq < i64Max) (hlt : e.commitMicros < hotMin) :
    auditSelects userFrom (baseColdTo (some (auditColdTo userTo hotMin)) floor) fromSeq
        (some (baseAuditSeqCap toSeq forkSeq)) rowUuids e = true ↔
      (decide (e.commitSeqNum ≤ forkSeq) && floor.all (fun f => decide (e.commitMicros < f))) = true ∧
        auditSelects userFrom userTo fromSeq toSeq rowUuids e = true := by
  have hto : e.commitMicros < auditColdTo userTo hotMin ↔
      userTo.all (fun v => decide (e.commitMicros < v)) = true := by
    cases userTo with
    | none => simpa [auditColdTo] using hlt
    | some t => simp [auditColdTo, hlt]
  simp only [auditSelects, Bool.and_eq_true, all_baseColdTo_iff, Option.all_some, decide_eq_true_eq,
    lt_baseAuditSeqCap_iff hseq, hto]
  tauto

variable {b : ForkedBranch R V} {L : BranchLog R V} {H : History R V} {L₀ : BranchLog R V} {logKind : LogKind}
  (hparent : ForkedParent b.parent H b.fork L₀.entries)
include hparent

/-- The base arm in terms of what the parent's segments hold. -/
theorem ForkedParent.perm_auditBase (req : AuditDataRequest R) :
    (b.auditBase logKind (b.planAudit req)).Perm
      ((b.parent.views.flatMap SegmentView.read).filter (fun e => decide (e.kind = logKind) &&
        auditSelects (b.child.planAudit req).coldFrom (b.planAudit req).baseColdTo req.committed.seqFrom
          (some (baseAuditSeqCap req.committed.seqTo b.fork.commitSeqNum)) req.rowUuids e)) := by
  have hinv := hparent.inv.branch
  have hplan : (b.planAudit req).baseSegments logKind =
      (b.parent.segmentsForWindow (b.child.planAudit req).coldFrom (b.planAudit req).baseColdTo
        (some b.fork.commitSeqNum)).filter (fun seg => seg.logKind = logKind) := by
    cases logKind <;> rfl
  refine (List.perm_insertionSort _ _).trans ?_
  rw [hplan]
  refine Store.perm_windowArm hinv.segments hinv.bounded (fun v hv e he => (hinv.stored v hv e he).1.2) ?_
  intro e he
  obtain ⟨hfrom, hto, hseq⟩ := auditSelects_window he
  refine ⟨hfrom, hto, ?_⟩
  rintro n ⟨⟩
  have hlt := hseq _ rfl
  have hcap : baseAuditSeqCap req.committed.seqTo b.fork.commitSeqNum ≤ b.fork.commitSeqNum + 1 := by
    unfold baseAuditSeqCap satSucc
    cases req.committed.seqTo <;> simp
  have hlt' : e.commitSeqNum < baseAuditSeqCap req.committed.seqTo b.fork.commitSeqNum := hlt
  omega

/-- Once the child has a watermark, at or past everything it inherited, the base arm reports the entries below
    the copies that are in the window. -/
theorem ForkedParent.perm_auditBase_belowCopies (hseq : b.fork.commitSeqNum < i64Max) (hmin : b.child.hotMin ≠ 0)
    (hreach : ∀ e ∈ L₀.entries, e.commitMicros < b.child.hotMin) (req : AuditDataRequest R) :
    (b.auditBase logKind (b.planAudit req)).Perm
      (b.belowCopies.filter (fun e => decide (e.kind = logKind) && req.selects e)) := by
  refine (hparent.perm_auditBase req).trans (List.Perm.of_eq ?_)
  rw [ForkedBranch.belowCopies, List.filter_filter]
  refine List.filter_congr (fun e he => ?_)
  have hfrom : (b.child.planAudit req).coldFrom = req.committed.userFrom := if_neg hmin
  have hto : (b.planAudit req).baseColdTo = baseColdTo (some (auditColdTo req.committed.userTo b.child.hotMin))
      (b.child.inheritedOwnArmFloor b.fork.commitSeqNum) := by
    show baseColdTo (b.child.planAudit req).coldTo _ = _
    rw [show (b.child.planAudit req).coldTo = some (auditColdTo req.committed.userTo b.child.hotMin) from
      if_neg hmin]
  rw [hfrom, hto, Bool.and_assoc, Bool.eq_iff_iff, Bool.and_eq_true, Bool.and_eq_true]
  refine and_congr_right (fun _ => ?_)
  obtain ⟨v, hv, hev⟩ := List.mem_flatMap.mp he
  have hent := (hparent.inv.branch.stored v hv e hev).1.1
  by_cases hle : e.commitSeqNum ≤ b.fork.commitSeqNum
  · have hlt := hreach e ((hparent.entries e).mp ⟨hent, hle⟩)
    exact (auditSelects_base hseq hlt).trans (and_comm.trans Bool.and_eq_true_iff.symm)
  · constructor
    · intro hsel
      exact absurd ((lt_baseAuditSeqCap_iff hseq).mp ((auditSelects_window hsel).2.2 _ rfl)).1 hle
    · intro h
      rw [Bool.and_eq_true, Bool.and_eq_true, decide_eq_true_eq] at h
      exact absurd h.2.1 hle

end BaseArm

/-! ## The child -/

section Child

variable {cfg : PersistConfig R V} {b b' : Branch R V} {fork : ForkPoint} {L₀ : BranchLog R V}
  {inherited : List (LogEntry R V)} {floor : Option Int}

omit [DecidableEq R] in
theorem Store.inheritedOwnArmFloor_eq {s : Store R V} (hok : s.SegmentsOk) (seq : Int) :
    s.inheritedOwnArmFloor seq =
      ((s.views.filter (fun v => decide (v.minCommitSeqNum ≤ seq))).map SegmentView.minTxCommitMicros).min? := by
  have hfilter : s.persistSegments.filter (fun seg => seg.committed && decide (seg.minCommitSeqNum ≤ seq)) =
      s.persistSegments.filter (fun seg => decide ((s.view seg).minCommitSeqNum ≤ seq)) := by
    refine List.filter_congr (fun seg hseg => ?_)
    rw [hok.committed seg hseg, Bool.true_and]
    rfl
  rw [inheritedOwnArmFloor, hfilter, views, List.filter_map, List.map_map]
  rfl

/-- What an audit of a forked branch needs of it: the log it inherited, its copies of it, and that everything
    the branch commits itself is later. -/
structure AuditedChild (b : Branch R V) (fork : ForkPoint) (L₀ : BranchLog R V) (inherited : List (LogEntry R V))
    (floor : Option Int) : Prop extends ForkedChild b fork inherited floor where
  inherits : ∀ e ∈ inherited, e ∈ L₀.entries
  atMost : ∀ e ∈ L₀.entries, e.commitSeqNum ≤ fork.commitSeqNum
  copied : ∀ m, b.store.inheritedOwnArmFloor fork.commitSeqNum = some m → ∀ e ∈ L₀.entries, m ≤ e.commitMicros →
    ∃ v ∈ b.store.views, e ∈ v.read
  clock : ∃ c ∈ b.store.commitTxLog, ∀ e ∈ L₀.entries, e.commitMicros ≤ c.commitMicros
  later : ∀ a ∈ b.log, fork.commitSeqNum < a.commitSeqNum → ∀ e ∈ L₀.entries, e.commitMicros ≤ a.commitMicros
  reaches : ∀ p, b.store.persistWatermark = some p → ∀ e ∈ L₀.entries, e.commitMicros ≤ p
  hotNodup : b.store.hot.Nodup

omit [DecidableEq R] in
theorem AuditedChild.of_eq (hchild : AuditedChild b fork L₀ inherited floor)
    (hforked : ForkedChild b' fork inherited floor) (hlog : b'.log = b.log)
    (hparents : b'.store.tablePersists = b.store.tablePersists)
    (hsegments : b'.store.persistSegments = b.store.persistSegments) (hviews : b'.store.views = b.store.views)
    (hclock : b'.store.commitTxLog = b.store.commitTxLog) (hhot : b'.store.hot.Nodup) :
    AuditedChild b' fork L₀ inherited floor := by
  constructor
  case toForkedChild => exact hforked
  case inherits => exact hchild.inherits
  case atMost => exact hchild.atMost
  case copied =>
    rw [Store.inheritedOwnArmFloor, hsegments, hviews]
    exact hchild.copied
  case clock => exact hclock ▸ hchild.clock
  case later => exact hlog ▸ hchild.later
  case reaches =>
    rw [Store.persistWatermark, hparents]
    exact hchild.reaches
  case hotNodup => exact hhot

omit [DecidableEq R] in
/-- A Persist of the child adds segments past the fork only. -/
theorem AuditedChild.flushed (hchild : AuditedChild b fork L₀ inherited floor) {s' : Store R V} {persistedAt : Int}
    (hp : b.store.Flushed s' persistedAt) (hforked : ForkedChild ⟨s', b.log⟩ fork inherited floor) :
    AuditedChild ⟨s', b.log⟩ fork L₀ inherited floor := by
  obtain ⟨L, hL, hinv⟩ := hchild.keeps
  obtain ⟨ws, hperm, hws, hviews⟩ := hp.views
  have hhot : ∀ w ∈ ws, ∀ e ∈ w.2, e ∈ b.store.hot := by
    intro w hw e he
    exact (List.mem_filter.mp (hperm.mem_iff.mp (List.mem_flatMap.mpr ⟨w, hw, he⟩))).1
  have hnew : ∀ w ∈ ws, fork.commitSeqNum < (SegmentView.ofRows w.1 w.2).minCommitSeqNum := by
    intro w hw
    obtain ⟨e, he, hmin⟩ : ∃ e ∈ w.2, e.commitSeqNum = (SegmentView.ofRows w.1 w.2).minCommitSeqNum :=
      SegmentView.exists_minCommitSeqNum_ofRows (hws w hw).2.1
    exact hmin ▸ hchild.lt_of_mem_hot (hhot w hw e he)
  have hfloor : s'.inheritedOwnArmFloor fork.commitSeqNum = b.store.inheritedOwnArmFloor fork.commitSeqNum := by
    have hnil : ((ws.filter (fun w => !b.store.hasSegment w.1)).map (fun w => SegmentView.ofRows w.1 w.2)).filter
        (fun v => decide (v.minCommitSeqNum ≤ fork.commitSeqNum)) = [] := by
      rw [List.filter_eq_nil_iff]
      intro v hv
      obtain ⟨w, hw, rfl⟩ := List.mem_map.mp hv
      have hlt := hnew w (List.mem_filter.mp hw).1
      simpa using hlt
    rw [Store.inheritedOwnArmFloor_eq hp.segments, Store.inheritedOwnArmFloor_eq hinv.segments, hviews,
      List.filter_append, hnil, List.append_nil]
  constructor
  case toForkedChild => exact hforked
  case inherits => exact hchild.inherits
  case atMost => exact hchild.atMost
  case copied =>
    intro m hm e he hle
    obtain ⟨v, hv, hev⟩ := hchild.copied m (hfloor ▸ hm) e he hle
    exact ⟨v, hviews ▸ List.mem_append_left _ hv, hev⟩
  case clock => exact hp.coldOnly.commitTxLog ▸ hchild.clock
  case later => exact hchild.later
  case reaches =>
    intro p hwm e he
    obtain rfl := Option.some.inj (hp.watermark.symm.trans hwm)
    obtain ⟨a, ha, hat⟩ := hp.attained
    have hlog : a ∈ b.log := hL ▸ ((hinv.mem_hot a).mp ha).1
    exact hat ▸ hchild.later a hlog (hchild.lt_of_mem_hot ha) e he
  case hotNodup => exact hp.coldOnly.hot ▸ hchild.hotNodup

theorem AuditedChild.step (hchild : AuditedChild b fork L₀ inherited floor) {o : Op R V}
    (hnc : BranchNoClobber cfg b o) (h : branchStep cfg b o = some b') :
    AuditedChild b' fork L₀ inherited floor := by
  have hforked : ForkedChild b' fork inherited floor :=
    hchild.toForkedChild.grows (hchild.keeps.step hnc h) (.step h)
  rcases branchStep_cases h with ⟨micros, rows, rfl, hclock, hfresh, rfl⟩ | ⟨target, step1Now, rfl, rfl⟩ |
    ⟨snapshottedAt, indexes, rfl, rfl⟩ | rfl | rfl
  · constructor
    case toForkedChild => exact hforked
    case inherits => exact hchild.inherits
    case atMost => exact hchild.atMost
    case copied =>
      have hviews : (b.store.withCommit micros rows).views = b.store.views := Store.views_of_eq rfl rfl
      rw [hviews]
      exact hchild.copied
    case clock =>
      obtain ⟨c, hc, hle⟩ := hchild.clock
      exact ⟨c, List.mem_append_left _ hc, hle⟩
    case later =>
      intro a ha hlt e he
      rcases List.mem_append.mp ha with hold | hnew
      · exact hchild.later a hold hlt e he
      · obtain ⟨c, hc, hle⟩ := hchild.clock
        rw [CommittedTx.commitMicros_of_mem hnew]
        exact (hle e he).trans (hclock.2 c hc)
    case reaches => exact hchild.reaches
    case hotNodup =>
      obtain ⟨L, -, hinv⟩ := hchild.keeps
      refine List.nodup_append.mpr ⟨hchild.hotNodup, (b.store.nextTx micros rows).nodup_entries, ?_⟩
      rintro e hold _ hnew rfl
      have hlt := hinv.allocated e ((hinv.mem_hot e).mp hold).1
      rw [CommittedTx.commitSeqNum_of_mem hnew] at hlt
      exact absurd hlt (lt_irrefl _)
  · obtain ⟨L, -, hinv⟩ := hchild.keeps
    rcases Store.persistLocked_flushed hinv.segments hinv.parents hnc with heq | ⟨persistedAt, hp⟩
    · rw [heq] at hforked ⊢
      exact hchild.of_eq hforked rfl rfl rfl rfl rfl hchild.hotNodup
    · exact hchild.flushed hp hforked
  · refine hchild.of_eq hforked rfl ?_ ?_ ?_ ?_ ?_ <;> simp only [Store.snapshotLocked] <;> split
    all_goals first
      | rfl
      | exact hchild.hotNodup
  · refine hchild.of_eq hforked rfl ?_ ?_ ?_ ?_ ?_ <;> simp only [Store.purgeLocked] <;> split
    all_goals first
      | rfl
      | exact hchild.hotNodup
      | exact hchild.hotNodup.filter _
  · exact hchild

theorem AuditedChild.run (hchild : AuditedChild b fork L₀ inherited floor) {ops : List (Op R V)}
    (hmeets : Runs.Meets (branchStep cfg) (BranchNoClobber cfg) b ops)
    (hrun : Runs.run (branchStep cfg) b ops = some b') : AuditedChild b' fork L₀ inherited floor := by
  have hstep : ∀ (m : Branch R V) (o : Op R V) (m' : Branch R V), AuditedChild m fork L₀ inherited floor →
      BranchNoClobber cfg m o → branchStep cfg m o = some m' → AuditedChild m' fork L₀ inherited floor :=
    fun m o m' hm hnc h => hm.step hnc h
  exact Runs.invariant_of_step hstep hchild hmeets hrun

theorem RewriteInv.auditedChild {p child : Store R V} {H : History R V} (hinv : RewriteInv p H)
    {forkMicros : Int}
    (hpersisted : ∀ e ∈ H.entries, e.commitSeqNum ≤ fork.commitSeqNum → p.PersistedEntry e)
    (hclock : p.ClockAdmits forkMicros) (hpos : 0 ≤ fork.commitSeqNum)
    (hchild : p.materializeForkColdReferences fork forkMicros = some child) :
    AuditedChild ⟨child, H.atFork fork⟩ fork (H.log.cut fork.commitSeqNum) (H.log.cut fork.commitSeqNum).entries
      (p.baselineAt fork) := by
  have hstored := hinv.toStoredInv
  have hforked := hstored.forkedChild hpersisted hclock hpos hchild
  have hbranch := forkChild_inv hstored hpersisted hclock hpos hchild
  have heq := (Store.child_eq hchild).1
  constructor
  case toForkedChild => exact hforked
  case inherits => exact fun e he => he
  case atMost => exact fun e he => (BranchLog.mem_cut.mp he).2
  case copied =>
    intro m hm e he hle
    obtain ⟨hent, hfork⟩ := BranchLog.mem_cut.mp he
    rw [Store.inheritedOwnArmFloor_eq hbranch.segments] at hm
    obtain ⟨v, hv, rfl⟩ := List.mem_map.mp (List.min?_eq_some_iff.mp hm).1
    -- The oldest row of a copied segment: everything newer is under a header as late, and copied as well.
    obtain ⟨w, hw, hinherits, header, hheader, hparent, hpast⟩ :=
      hstored.exists_parentHeader hchild (List.mem_filter.mp hv).1
    obtain ⟨a, ha, hat⟩ := (hinv.segments.exact_of_mem hw).minMicros
    have haH : a ∈ H.entries := (hinv.stored w hw a ha).1
    have hseq : a.commitSeqNum ≤ e.commitSeqNum := by
      rw [H.log.axes a haH e hent, hat, ← hinherits.minTxCommitMicros]
      exact hle
    obtain ⟨w', hw', hew', header', hheader', hparent', hlate⟩ :=
      hinv.suffix w hw header hheader hparent a ha e hent hseq (hpersisted e hent hfork)
    exact hstored.exists_copy hchild hw' hheader' hparent' (fun base h => lt_of_lt_of_le (hpast base h) hlate) hew'
      hfork
  case clock =>
    refine ⟨⟨fork.commitSeqNum + 1, forkMicros⟩, ?_, ?_⟩
    · rw [heq]
      exact List.mem_singleton_self _
    · intro e he
      obtain ⟨c, hc, hle⟩ := hstored.branch.clock e (BranchLog.mem_cut.mp he).1
      exact hle.trans (hclock.2 c hc)
  case later =>
    intro a ha hlt
    have hle := (BranchLog.mem_cut (L := H.log).mp ha).2
    omega
  case reaches =>
    intro l hl e he
    obtain ⟨hent, hle⟩ := BranchLog.mem_cut.mp he
    obtain ⟨l', hl', hel⟩ := hstored.child_persisted hpersisted hchild hent hle
    obtain rfl := Option.some.inj (hl.symm.trans hl')
    exact hel
  case hotNodup =>
    rw [heq]
    exact List.nodup_nil

theorem StoredInv.auditedChild_childTable {p : Store R V} {H : History R V} (hinv : StoredInv p H)
    {forkMicros : Int} (hclock : p.ClockAdmits forkMicros) (hpos : 0 ≤ fork.commitSeqNum) :
    AuditedChild ⟨(childTable fork forkMicros : Store R V), []⟩ fork (H.log.cut fork.commitSeqNum) [] none := by
  constructor
  case toForkedChild => exact forkedChild_childTable hpos
  case inherits => exact fun e he => absurd he List.not_mem_nil
  case atMost => exact fun e he => (BranchLog.mem_cut.mp he).2
  case copied => exact fun m hm => absurd hm (by simp [Store.inheritedOwnArmFloor, childTable, Store.init])
  case clock =>
    refine ⟨⟨fork.commitSeqNum + 1, forkMicros⟩, List.mem_singleton_self _, ?_⟩
    intro e he
    obtain ⟨c, hc, hle⟩ := hinv.branch.clock e (BranchLog.mem_cut.mp he).1
    exact hle.trans (hclock.2 c hc)
  case later => exact fun a ha => absurd ha List.not_mem_nil
  case reaches => exact fun l hl => absurd hl (by simp [Store.persistWatermark, childTable, Store.init])
  case hotNodup => exact List.nodup_nil

end Child

/-! ## All audits of a forked branch -/

section Audits

/-- What a forked branch has committed: what it inherited, and its own entries. -/
def committedOnFork (inherited log : List (LogEntry R V)) (fork : ForkPoint) : List (LogEntry R V) :=
  inherited ++ log.filter (fun e => decide (fork.commitSeqNum < e.commitSeqNum))

/-- All that an audit of a forked branch draws from. -/
def ForkedBranch.auditSources (b : ForkedBranch R V) : List (LogEntry R V) :=
  b.child.views.flatMap SegmentView.read ++ b.belowCopies ++
    b.child.hot.filter (fun e => decide (b.child.hotMin ≤ e.commitMicros))

variable {b : ForkedBranch R V} {H : History R V} {L₀ : BranchLog R V} {log inherited : List (LogEntry R V)}
  {floor : Option Int} (hparent : ForkedParent b.parent H b.fork L₀.entries)
  (hchild : AuditedChild ⟨b.child, log⟩ b.fork L₀ inherited floor)

include hparent in
/-- The base arm is there for the inherited entries before the floor. -/
theorem ForkedParent.mem_belowCopies {e : LogEntry R V} :
    e ∈ b.belowCopies ↔ e ∈ L₀.entries ∧
      ∀ m, b.child.inheritedOwnArmFloor b.fork.commitSeqNum = some m → e.commitMicros < m := by
  rw [ForkedBranch.belowCopies, List.mem_filter, Bool.and_eq_true, decide_eq_true_eq, Option.all_eq_true,
    ← and_assoc, ← hparent.entries]
  have hall : (∀ m ∈ b.child.inheritedOwnArmFloor b.fork.commitSeqNum, decide (e.commitMicros < m) = true) ↔
      ∀ m, b.child.inheritedOwnArmFloor b.fork.commitSeqNum = some m → e.commitMicros < m := by
    simp only [decide_eq_true_eq, Option.mem_def]
  refine and_congr (and_congr_left (fun hle => ?_)) hall
  rw [List.mem_flatMap]
  constructor
  · rintro ⟨v, hv, hev⟩
    exact (hparent.inv.branch.stored v hv e hev).1.1
  · intro he
    exact hparent.inv.branch.complete e he (hparent.persisted e ((hparent.entries e).mp ⟨he, hle⟩))
      (fun f hf => absurd hf (by simp))

include hchild

omit [DecidableEq R] in
theorem AuditedChild.mem_stored {e : LogEntry R V} :
    e ∈ b.child.views.flatMap SegmentView.read ↔
      (e ∈ L₀.entries ∧ ∃ m, b.child.inheritedOwnArmFloor b.fork.commitSeqNum = some m ∧ m ≤ e.commitMicros) ∨
      (e ∈ log ∧ b.fork.commitSeqNum < e.commitSeqNum ∧ b.child.PersistedEntry e) := by
  obtain ⟨L, hL, hinv⟩ := hchild.keeps
  replace hL : L.entries = log := hL
  rw [List.mem_flatMap]
  constructor
  · rintro ⟨v, hv, hev⟩
    obtain ⟨⟨hent, -⟩, hpers⟩ := hinv.stored v hv e hev
    by_cases hle : e.commitSeqNum ≤ b.fork.commitSeqNum
    · refine .inl ⟨hchild.inherits e ((hchild.entries e).mp ⟨hL ▸ hent, hle⟩), ?_⟩
      have hmem : v ∈ b.child.views.filter (fun v => decide (v.minCommitSeqNum ≤ b.fork.commitSeqNum)) :=
        List.mem_filter.mpr ⟨hv, decide_eq_true (((hinv.bounded v hv).seq e hev).trans hle)⟩
      obtain ⟨u, -, hmin⟩ := exists_min?_map (f := SegmentView.minTxCommitMicros) (List.ne_nil_of_mem hmem)
      refine ⟨u.minTxCommitMicros, ?_, ?_⟩
      · rw [Store.inheritedOwnArmFloor_eq hinv.segments]
        exact hmin
      · exact (min?_map_le hmin hmem).trans ((hinv.bounded v hv).micros e hev).1
    · exact .inr ⟨hL ▸ hent, by omega, hpers⟩
  · rintro (⟨he, m, hm, hle⟩ | ⟨hlog, hlt, hpers⟩)
    · exact hchild.copied m hm e he hle
    · have hent : e ∈ L.entries := hL ▸ hlog
      refine hinv.complete e hent hpers (fun f hf => ?_)
      -- A snapshot within the fork folded nothing of the child's own.
      obtain ⟨n, hn, hseq⟩ := hchild.baseline f hf
      refine lt_of_le_of_lt ((hinv.based f hf).2 n hn) (lt_of_not_ge (fun hfold => ?_))
      have := (hinv.snapshots n hn).reaches e hent hfold
      omega

omit [DecidableEq R] in
theorem AuditedChild.mem_hotFrom {e : LogEntry R V} :
    e ∈ b.child.hot.filter (fun e => decide (b.child.hotMin ≤ e.commitMicros)) ↔
      e ∈ log ∧ b.fork.commitSeqNum < e.commitSeqNum ∧ ¬ b.child.PersistedEntry e := by
  obtain ⟨L, hL, hinv⟩ := hchild.keeps
  replace hL : L.entries = log := hL
  rw [List.mem_filter, decide_eq_true_eq]
  constructor
  · rintro ⟨hhot, hge⟩
    refine ⟨hL ▸ ((hinv.mem_hot e).mp hhot).1, hchild.lt_of_mem_hot hhot, ?_⟩
    rintro ⟨p, hp, hle⟩
    rw [Store.hotMin_eq hp] at hge
    omega
  · rintro ⟨hlog, hlt, hpers⟩
    exact hinv.mem_hot_of_not_persisted (hL ▸ hlog) hpers

include hparent in
/-- **The sources hold what was committed**, each entry in one of them. -/
theorem AuditedChild.mem_auditSources {e : LogEntry R V} :
    e ∈ b.auditSources ↔ e ∈ committedOnFork L₀.entries log b.fork := by
  rw [ForkedBranch.auditSources, committedOnFork, List.mem_append, List.mem_append, List.mem_append,
    hchild.mem_stored, hparent.mem_belowCopies, hchild.mem_hotFrom, List.mem_filter, decide_eq_true_eq]
  constructor
  · rintro (((⟨he, -⟩ | ⟨hlog, hlt, -⟩) | ⟨he, -⟩) | ⟨hlog, hlt, -⟩)
    · exact .inl he
    · exact .inr ⟨hlog, hlt⟩
    · exact .inl he
    · exact .inr ⟨hlog, hlt⟩
  · rintro (he | ⟨hlog, hlt⟩)
    · by_cases hcopied : ∃ m, b.child.inheritedOwnArmFloor b.fork.commitSeqNum = some m ∧ m ≤ e.commitMicros
      · exact .inl (.inl (.inl ⟨he, hcopied⟩))
      · push Not at hcopied
        exact .inl (.inr ⟨he, hcopied⟩)
    · by_cases hpers : b.child.PersistedEntry e
      · exact .inl (.inl (.inr ⟨hlog, hlt, hpers⟩))
      · exact .inr ⟨hlog, hlt, hpers⟩

include hparent in
/-- Different sources share nothing. -/
theorem AuditedChild.nodup_auditSources_iff :
    b.auditSources.Nodup ↔ (b.child.views.flatMap SegmentView.read).Nodup ∧ b.belowCopies.Nodup := by
  have hdisjoint : ∀ e ∈ b.child.views.flatMap SegmentView.read, ∀ e' ∈ b.belowCopies, e ≠ e' := by
    rintro e he _ hbase rfl
    obtain ⟨hin, hbefore⟩ := hparent.mem_belowCopies.mp hbase
    rcases hchild.mem_stored.mp he with ⟨-, m, hm, hle⟩ | ⟨-, hlt, -⟩
    · have := hbefore m hm
      omega
    · have := hchild.atMost e hin
      omega
  have hhot : ∀ e ∈ b.child.views.flatMap SegmentView.read ++ b.belowCopies,
      ∀ e' ∈ b.child.hot.filter (fun e => decide (b.child.hotMin ≤ e.commitMicros)), e ≠ e' := by
    rintro e he _ hfrom rfl
    obtain ⟨-, hlt, hpers⟩ := hchild.mem_hotFrom.mp hfrom
    rcases List.mem_append.mp he with he | he
    · rcases hchild.mem_stored.mp he with ⟨hin, -⟩ | ⟨-, -, hpers'⟩
      · have := hchild.atMost e hin
        omega
      · exact hpers hpers'
    · have := hchild.atMost e (hparent.mem_belowCopies.mp he).1
      omega
  have hnodup : (b.child.hot.filter (fun e => decide (b.child.hotMin ≤ e.commitMicros))).Nodup :=
    hchild.hotNodup.filter _
  rw [ForkedBranch.auditSources, List.nodup_append, List.nodup_append]
  constructor
  · rintro ⟨⟨hown, hbase, -⟩, -, -⟩
    exact ⟨hown, hbase⟩
  · rintro ⟨hown, hbase⟩
    exact ⟨⟨hown, hbase, hdisjoint⟩, hnodup, hhot⟩

omit [DecidableEq R] in
/-- Before its first Persist the child has copied nothing. -/
theorem AuditedChild.inheritedOwnArmFloor_eq_none (hmin : b.child.hotMin = 0) (seq : Int) :
    b.child.inheritedOwnArmFloor seq = none := by
  obtain ⟨L, -, hinv⟩ := hchild.keeps
  have hnil : b.child.views = [] := by
    apply List.eq_nil_iff_forall_not_mem.mpr
    intro v hv
    have hne : v.read ≠ [] := by
      rcases hinv.clipped v hv with heq | ⟨hne, -⟩
      · rw [heq]
        exact hinv.segments.nonempty v hv
      · exact hne
    obtain ⟨e, he⟩ := List.exists_mem_of_ne_nil _ hne
    exact hinv.hotMin_ne_zero hv he hmin
  rw [Store.inheritedOwnArmFloor_eq hinv.segments]
  show ((b.child.views.filter _).map _).min? = none
  rw [hnil]
  rfl

include hparent in
/-- An audit reports what the sources hold of its window, once the base arm is cut to it or is empty. -/
theorem AuditedChild.perm_auditData (hseq : b.fork.commitSeqNum < i64Max)
    (hcut : b.child.hotMin = 0 → b.belowCopies.isEmpty = true) (logKind : LogKind) (req : AuditDataRequest R) :
    (b.auditData logKind req).Perm
      (b.auditSources.filter (fun e => decide (e.kind = logKind) && req.selects e)) := by
  obtain ⟨L, -, hinv⟩ := hchild.keeps
  have hbase : (b.auditBase logKind (b.planAudit req)).Perm
      (b.belowCopies.filter (fun e => decide (e.kind = logKind) && req.selects e)) := by
    by_cases hmin : b.child.hotMin = 0
    · have hempty : b.belowCopies = [] := List.isEmpty_iff.mp (hcut hmin)
      have hnone : b.auditBase logKind (b.planAudit req) = [] := by
        apply List.eq_nil_iff_forall_not_mem.mpr
        intro e he
        obtain ⟨hstored, hsel⟩ := List.mem_filter.mp ((hparent.perm_auditBase req).mem_iff.mp he)
        obtain ⟨v, hv, hev⟩ := List.mem_flatMap.mp hstored
        have hcap := (auditSelects_window (Bool.and_eq_true_iff.mp hsel).2).2.2 _ rfl
        have hmem : e ∈ b.belowCopies := by
          rw [hparent.mem_belowCopies, ← hparent.entries]
          refine ⟨⟨(hparent.inv.branch.stored v hv e hev).1.1, ((lt_baseAuditSeqCap_iff hseq).mp hcap).1⟩, ?_⟩
          intro m hm
          rw [hchild.inheritedOwnArmFloor_eq_none hmin] at hm
          cases hm
        rw [hempty] at hmem
        cases hmem
      rw [hempty, hnone, List.filter_nil]
    · refine hparent.perm_auditBase_belowCopies hseq hmin (fun e he => ?_) req
      cases hp : b.child.persistWatermark with
      | none => exact absurd (by simp [Store.hotMin, hp]) hmin
      | some p =>
          have := hchild.reaches p hp e he
          rw [Store.hotMin_eq hp]
          omega
  have hhot : b.child.auditHot logKind (b.planAudit req).own = _ := hinv.auditHot_eq req
  rw [ForkedBranch.auditData, ForkedBranch.auditSources, List.filter_append, List.filter_append, hhot]
  exact ((hinv.perm_auditCold req).append hbase).append_right _

include hparent in
/-- **All audits of a forked branch.** -/
theorem AuditedChild.auditsOnce_iff (hseq : b.fork.commitSeqNum < i64Max) (hlog : log.Nodup) :
    (∀ logKind req, b.AuditsOnce (committedOnFork L₀.entries log b.fork) logKind req) ↔ b.AuditSourcesOk := by
  have hnodup : (committedOnFork L₀.entries log b.fork).Nodup := by
    refine List.nodup_append.mpr ⟨L₀.nodup, hlog.filter _, ?_⟩
    rintro e hin _ hown rfl
    have hlt := of_decide_eq_true (List.mem_filter.mp hown).2
    have hle := hchild.atMost e hin
    omega
  have hiff : (b.child.hotMin = 0 → b.belowCopies.isEmpty = true) →
      ((∀ logKind req, b.AuditsOnce (committedOnFork L₀.entries log b.fork) logKind req) ↔
        (b.child.views.flatMap SegmentView.read).Nodup ∧ b.belowCopies.Nodup) := by
    intro hcut
    rw [← hchild.nodup_auditSources_iff hparent,
      ← forall_perm_filter_iff hnodup (fun e => hchild.mem_auditSources hparent)]
    refine forall_congr' (fun logKind => forall_congr' (fun req => ?_))
    have hperm := hchild.perm_auditData hparent hseq hcut logKind req
    exact ⟨fun h => hperm.symm.trans h, fun h => hperm.trans h⟩
  constructor
  · intro h
    have hcut : b.child.hotMin = 0 → b.belowCopies.isEmpty = true := by
      intro hmin
      rw [List.isEmpty_iff]
      apply List.eq_nil_iff_forall_not_mem.mpr
      intro e he
      -- The window past the entry: without a `hot_min` the base arm reports it all the same.
      let req : AuditDataRequest R := ⟨.commitMicros (some (e.commitMicros + 1)) none, none⟩
      have hmem : e ∈ b.auditBase e.kind (b.planAudit req) := by
        obtain ⟨hstored, hbounds⟩ := List.mem_filter.mp he
        have hle := of_decide_eq_true (Bool.and_eq_true_iff.mp hbounds).1
        have hfrom : (b.child.planAudit req).coldFrom = none := if_pos hmin
        have hto : (b.planAudit req).baseColdTo = none := by
          show baseColdTo (b.child.planAudit req).coldTo _ = none
          rw [hchild.inheritedOwnArmFloor_eq_none hmin]
          exact if_pos hmin
        have hcap : e.commitSeqNum < baseAuditSeqCap none b.fork.commitSeqNum :=
          (lt_baseAuditSeqCap_iff hseq).mpr ⟨hle, rfl⟩
        rw [(hparent.perm_auditBase req).mem_iff, List.mem_filter, hfrom, hto]
        refine ⟨hstored, ?_⟩
        show (decide (e.kind = e.kind) && auditSelects none none none
          (some (baseAuditSeqCap none b.fork.commitSeqNum)) none e) = true
        simp [auditSelects, hcap]
      have hreported : e ∈ b.auditData e.kind req :=
        List.mem_append_left _ (List.mem_append_right _ hmem)
      have hsel := (List.mem_filter.mp ((h e.kind req).mem_iff.mp hreported)).2
      have hfrom := (auditSelects_window (Bool.and_eq_true_iff.mp hsel).2).1 _ rfl
      omega
    obtain ⟨hown, hbase⟩ := (hiff hcut).mp h
    exact ⟨hown, hbase, hcut⟩
  · rintro ⟨hown, hbase, hcut⟩
    exact (hiff hcut).mpr ⟨hown, hbase⟩

end Audits

section Run

/-- **Audits of a forked branch.** For every parent a run reaches, every committed fork position and everything
    the parent and the child do after the fork (Persists not clobbering): all audits of the child report every
    entry of their window that the parent committed up to the fork or the child committed exactly once, and
    nothing else, if and only if no source stores an entry twice and, as long as the child has no `hot_min`,
    the base arm has nothing to report. -/
theorem forkedAudits_iff (cfg : PersistConfig R V) (ops : List (TableOp R V)) (s : Store R V)
    (hmeets : Runs.Meets (tableStep cfg) (TableNoClobber cfg) Store.init ops)
    (hrun : Runs.run (tableStep cfg) Store.init ops = some s) (fork : ForkPoint)
    (hfork : (tableHistoryOf ops).Commits fork) (hseq : fork.commitSeqNum < i64Max)
    (step1Now forkMicros : Int) (listed : Bool)
    (hflush : NoClobber cfg s (.persist (some fork.commitMicros) step1Now))
    (hclock : s.ClockAdmits forkMicros) (fresh : Store R V)
    (hfresh : s.createBranch cfg fork step1Now forkMicros listed = some fresh)
    (parentOps : List (TableOp R V)) (parent : Store R V)
    (hparentMeets : Runs.Meets (tableStep cfg) (TableNoClobber cfg)
      (s.persistLocked cfg (some fork.commitMicros) step1Now) parentOps)
    (hparentRun : Runs.run (tableStep cfg) (s.persistLocked cfg (some fork.commitMicros) step1Now) parentOps =
      some parent)
    (childOps : List (Op R V)) (child : Branch R V)
    (hchildMeets : Runs.Meets (branchStep cfg) (BranchNoClobber cfg)
      ⟨fresh, forkLog (tableHistoryOf ops) fork listed⟩ childOps)
    (hchildRun : Runs.run (branchStep cfg) ⟨fresh, forkLog (tableHistoryOf ops) fork listed⟩ childOps = some child) :
    (∀ logKind req, (ForkedBranch.mk child.store parent fork).AuditsOnce
      (committedOnFork ((tableHistoryOf ops).atFork fork) child.log fork) logKind req) ↔
      (ForkedBranch.mk child.store parent fork).AuditSourcesOk := by
  have hinv := rewriteInv_run hmeets hrun
  obtain ⟨hflushed, hpersisted, hclock', hpos⟩ := hinv.toStoredInv.flush hfork hflush hclock
  have hrewrite := hinv.persistLocked hflush
  have hparent := (hflushed.forkedParent hfork hpersisted).run hparentMeets hparentRun
  obtain ⟨inherited, floor, hchild⟩ : ∃ inherited floor, AuditedChild ⟨fresh, forkLog (tableHistoryOf ops) fork listed⟩
      fork ((tableHistoryOf ops).log.cut fork.commitSeqNum) inherited floor := by
    cases listed with
    | true => exact ⟨_, _, hrewrite.auditedChild hpersisted hclock' hpos hfresh⟩
    | false =>
        cases hfresh
        exact ⟨_, _, hflushed.auditedChild_childTable hclock' hpos⟩
  have hend := hchild.run hchildMeets hchildRun
  have hlog : child.log.Nodup := by
    obtain ⟨L, hL, -⟩ := hend.keeps
    exact hL ▸ L.nodup
  exact hend.auditsOnce_iff (b := ⟨child.store, parent, fork⟩) hparent hseq hlog

/-- Two upserts, the first persisted before the fork. -/
def persistedBeforeForkRun : List (TableOp Nat Nat) :=
  [.op (.commit 10 (.single 1 (.upsert 5) 0)), .op (.persist none 15), .op (.commit 20 (.single 2 (.upsert 6) 1))]

/-- The flush of a fork at the head stores the first upsert again, and the audit of the child reports it twice;
    and an audit of a table that was not copied, from 50 on, reports the upsert at 10. -/
theorem persistedBeforeForkRun_not_auditsOnce :
    (∃ s child, Runs.run (tableStep oneByteRows) Store.init persistedBeforeForkRun = some s ∧
      s.createBranch oneByteRows ⟨1, 20⟩ 30 30 true = some child ∧
      ¬ (ForkedBranch.mk child (s.persistLocked oneByteRows (some 20) 30) ⟨1, 20⟩).AuditsOnce
        (committedOnFork ((tableHistoryOf persistedBeforeForkRun).atFork ⟨1, 20⟩)
          ((tableHistoryOf persistedBeforeForkRun).atFork ⟨1, 20⟩) ⟨1, 20⟩) .upsertLog
        ⟨.commitMicros none none, none⟩) ∧
    (∃ s child, Runs.run (tableStep oneByteRows) Store.init persistedBeforeForkRun = some s ∧
      s.createBranch oneByteRows ⟨0, 10⟩ 30 30 false = some child ∧
      ∃ e ∈ (ForkedBranch.mk child (s.persistLocked oneByteRows (some 10) 30) ⟨0, 10⟩).auditData .upsertLog
        ⟨.commitMicros (some 50) none, none⟩, e.commitMicros = 10) := by
  constructor
  · have hend : ((Runs.run (tableStep oneByteRows) Store.init persistedBeforeForkRun).bind (fun s =>
        (s.createBranch oneByteRows ⟨1, 20⟩ 30 30 true).map (fun child =>
          decide (¬ (ForkedBranch.mk child (s.persistLocked oneByteRows (some 20) 30) ⟨1, 20⟩).AuditsOnce
            (committedOnFork ((tableHistoryOf persistedBeforeForkRun).atFork ⟨1, 20⟩)
              ((tableHistoryOf persistedBeforeForkRun).atFork ⟨1, 20⟩) ⟨1, 20⟩) .upsertLog
            ⟨.commitMicros none none, none⟩)))) = some true := by
      decide +kernel
    obtain ⟨s, hrun, hs⟩ := Option.bind_eq_some_iff.mp hend
    obtain ⟨child, hchild, haudit⟩ := Option.map_eq_some_iff.mp hs
    exact ⟨s, child, hrun, hchild, of_decide_eq_true haudit⟩
  · have hend : ((Runs.run (tableStep oneByteRows) Store.init persistedBeforeForkRun).bind (fun s =>
        (s.createBranch oneByteRows ⟨0, 10⟩ 30 30 false).map (fun child =>
          decide (∃ e ∈ (ForkedBranch.mk child (s.persistLocked oneByteRows (some 10) 30) ⟨0, 10⟩).auditData .upsertLog
            ⟨.commitMicros (some 50) none, none⟩, e.commitMicros = 10)))) = some true := by
      decide +kernel
    obtain ⟨s, hrun, hs⟩ := Option.bind_eq_some_iff.mp hend
    obtain ⟨child, hchild, haudit⟩ := Option.map_eq_some_iff.mp hs
    exact ⟨s, child, hrun, hchild, of_decide_eq_true haudit⟩

/-- A snapshot, a Purge and a second Persist before the fork, and both branches went on. -/
theorem forkedInsideRun_auditsOnce :
    ∃ s fresh parent child, Runs.run (tableStep oneByteRows) Store.init forkedInsideRun = some s ∧
      s.createBranch oneByteRows ⟨3, 40⟩ 60 60 true = some fresh ∧
      Runs.run (tableStep oneByteRows) (s.persistLocked oneByteRows (some 40) 60) parentOnRun = some parent ∧
      Runs.run (branchStep oneByteRows) ⟨fresh, forkLog (tableHistoryOf forkedInsideRun) ⟨3, 40⟩ true⟩ childOnRun =
        some child ∧
      ∀ logKind req, (ForkedBranch.mk child.store parent ⟨3, 40⟩).AuditsOnce
        (committedOnFork ((tableHistoryOf forkedInsideRun).atFork ⟨3, 40⟩) child.log ⟨3, 40⟩) logKind req := by
  have hend : ((Runs.run (tableStep oneByteRows) Store.init forkedInsideRun).bind (fun s =>
      (s.createBranch oneByteRows ⟨3, 40⟩ 60 60 true).bind (fun fresh =>
        (Runs.run (tableStep oneByteRows) (s.persistLocked oneByteRows (some 40) 60) parentOnRun).bind (fun parent =>
          (Runs.run (branchStep oneByteRows) ⟨fresh, forkLog (tableHistoryOf forkedInsideRun) ⟨3, 40⟩ true⟩
            childOnRun).map (fun child =>
              decide ((NoClobber oneByteRows s (.persist (some 40) 60) ∧ s.ClockAdmits 60) ∧
                (Runs.Meets (tableStep oneByteRows) (TableNoClobber oneByteRows)
                  (s.persistLocked oneByteRows (some 40) 60) parentOnRun ∧
                Runs.Meets (branchStep oneByteRows) (BranchNoClobber oneByteRows)
                  ⟨fresh, forkLog (tableHistoryOf forkedInsideRun) ⟨3, 40⟩ true⟩ childOnRun) ∧
                (ForkedBranch.mk child.store parent ⟨3, 40⟩).AuditSourcesOk)))))) = some true := by
    decide +kernel
  obtain ⟨s, hrun, hs⟩ := Option.bind_eq_some_iff.mp hend
  obtain ⟨fresh, hfresh, hs⟩ := Option.bind_eq_some_iff.mp hs
  obtain ⟨parent, hparent, hs⟩ := Option.bind_eq_some_iff.mp hs
  obtain ⟨child, hchild, hok⟩ := Option.map_eq_some_iff.mp hs
  obtain ⟨⟨hflush, hclock⟩, ⟨hparentMeets, hchildMeets⟩, hsources⟩ := of_decide_eq_true hok
  have hfork : (tableHistoryOf forkedInsideRun).Commits ⟨3, 40⟩ :=
    ⟨_, List.mem_of_getElem? (i := 3) rfl, rfl, rfl⟩
  refine ⟨s, fresh, parent, child, hrun, hfresh, hparent, hchild, ?_⟩
  exact (forkedAudits_iff oneByteRows forkedInsideRun s (by decide +kernel) hrun ⟨3, 40⟩ hfork (by decide) 60 60 true
    hflush hclock fresh hfresh parentOnRun parent hparentMeets hparent childOnRun child hchildMeets hchild).mpr
    hsources

end Run

end Penca
