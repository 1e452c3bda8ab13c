import Penca.Lib.InFlight
import Penca.Lifecycle.Branch
import Penca.Query.Read

/-!
# `Query.Branch` — reads of a branch, forked or not

What a read of a branch in `BranchInv` returns, read position by read position. The plan's tiers hold every
visible entry past the picked snapshot; what they hold besides are the leftovers of the snapshot's own part
in the segments that straddle its position. `LeftoversAgree` says, of one read position, that these do not
change the outcome, and `readTiers_iff` that the read is right exactly then.

A read may bring hot rows of its own, newer than everything committed: those of an open transaction.

**Main result** (`readsReplay_iff_staleFree`): in a state of the lifecycle of an unforked table every read is right
iff the state is stale-free.
-/

namespace Penca

open Newest

variable {R V : Type} [DecidableEq R]

/-- The entries of a log visible at a read position. -/
def BranchLog.visibleTo (L : BranchLog R V) (rs : ReadSnapshot) : List (LogEntry R V) :=
  L.entries.filter rs.sees

omit [DecidableEq R] in
theorem BranchLog.mem_visibleTo {L : BranchLog R V} {rs : ReadSnapshot} {e : LogEntry R V} :
    e ∈ L.visibleTo rs ↔ e ∈ L.entries ∧ rs.sees e = true := List.mem_filter

omit [DecidableEq R] in
theorem BranchLog.separated_visibleTo (L : BranchLog R V) (rs : ReadSnapshot) :
    Separated LogEntry.version LogEntry.rowUuid {e | e ∈ L.visibleTo rs} :=
  L.separated.mono (fun _ he => (mem_visibleTo.mp he).1)

/-! ## Leftovers of a snapshot -/

/-- The entries at or below the position of `n` in the segments a read over `n` fetches. -/
def Store.leftovers (s : Store R V) (n : TableSnapshot R V) : List (LogEntry R V) :=
  ((s.views.filter (fun v => decide (n.snapshottedAtMicros < v.maxTxCommitMicros))).flatMap
    SegmentView.read).filter (fun e => decide (e.commitMicros ≤ n.snapshottedAtMicros))

/-- The visible entries past the position of `n`, in either tier. -/
def Store.pastSnapshot (s : Store R V) (rs : ReadSnapshot) (n : TableSnapshot R V) : List (LogEntry R V) :=
  (s.hot ++ s.views.flatMap SegmentView.read).filter (fun e =>
    rs.sees e && decide (n.snapshottedAtMicros < e.commitMicros))

/-- A row the leftovers mention and nothing newer does gets from them what the snapshot says. `own` are rows
    the read brings along. -/
def Store.LeftoversAgreeFor (s : Store R V) (rs : ReadSnapshot) (own : List (LogEntry R V))
    (n : TableSnapshot R V) : Prop :=
  ∀ e ∈ s.leftovers n, (∀ a ∈ own ++ s.pastSnapshot rs n, a.rowUuid ≠ e.rowUuid) →
    newestEffect (s.leftovers n) e.rowUuid = n.rows.lookup e.rowUuid

/-- The leftovers of the snapshot the read picks agree with it. -/
def Store.LeftoversAgree (s : Store R V) (rs : ReadSnapshot) (own : List (LogEntry R V)) : Prop :=
  ∀ n ∈ s.pickFor rs, s.LeftoversAgreeFor rs own n

instance [DecidableEq V] (s : Store R V) (rs : ReadSnapshot) (own : List (LogEntry R V))
    (n : TableSnapshot R V) : Decidable (s.LeftoversAgreeFor rs own n) :=
  inferInstanceAs (Decidable (∀ e ∈ s.leftovers n, _ → _))

instance [DecidableEq V] (s : Store R V) (rs : ReadSnapshot) (own : List (LogEntry R V)) :
    Decidable (s.LeftoversAgree rs own) :=
  inferInstanceAs (Decidable (∀ n ∈ s.pickFor rs, s.LeftoversAgreeFor rs own n))

/-- Of the rows a read brings along only their uuids matter. -/
theorem Store.leftoversAgree_congr {s : Store R V} {rs : ReadSnapshot} {own own' : List (LogEntry R V)}
    (h : ∀ r, (∃ e ∈ own, e.rowUuid = r) ↔ ∃ e ∈ own', e.rowUuid = r) :
    s.LeftoversAgree rs own ↔ s.LeftoversAgree rs own' := by
  have hmention : ∀ n r, (∀ a ∈ own ++ s.pastSnapshot rs n, a.rowUuid ≠ r) ↔
      ∀ a ∈ own' ++ s.pastSnapshot rs n, a.rowUuid ≠ r := by
    intro n r
    have hnot := not_congr (h r)
    simp only [not_exists, not_and] at hnot
    simp only [List.forall_mem_append, ne_eq, hnot]
  refine forall_congr' (fun n => forall_congr' (fun _ => ?_))
  exact forall_congr' (fun e => forall_congr' (fun _ => by rw [hmention]))

omit [DecidableEq R] in
theorem Store.mem_leftovers {s : Store R V} {n : TableSnapshot R V} {e : LogEntry R V} :
    e ∈ s.leftovers n ↔ e.commitMicros ≤ n.snapshottedAtMicros ∧
      ∃ v ∈ s.views, n.snapshottedAtMicros < v.maxTxCommitMicros ∧ e ∈ v.read := by
  simp only [leftovers, List.mem_filter, List.mem_flatMap, decide_eq_true_eq, and_assoc]
  tauto

omit [DecidableEq R] in
theorem Store.mem_pastSnapshot {s : Store R V} {rs : ReadSnapshot} {n : TableSnapshot R V}
    {e : LogEntry R V} :
    e ∈ s.pastSnapshot rs n ↔ (e ∈ s.hot ∨ ∃ v ∈ s.views, e ∈ v.read) ∧ rs.sees e = true ∧
      n.snapshottedAtMicros < e.commitMicros := by
  simp only [pastSnapshot, List.mem_filter, List.mem_append, List.mem_flatMap, Bool.and_eq_true,
    decide_eq_true_eq]

/-! ## The tiers of a plan -/

section Tiers

omit [DecidableEq R]

variable {s : Store R V} {L : BranchLog R V} {floor : Option Int} (hinv : BranchInv s L floor)
  {rs : ReadSnapshot}
include hinv

/-- The snapshot a read picks lies within its position. -/
theorem BranchInv.of_pickFor {n : TableSnapshot R V} (h : s.pickFor rs = some n) :
    n ∈ s.snapshots ∧ n.snapshottedAtMicros ≤ rs.planAsOfMicros ∧
      ∀ seq, rs.planCommitSeqUpper = some seq → n.commitSeqNum ≤ seq := by
  obtain ⟨hmem, hasOf, hseq⟩ := hinv.of_pickSnapshotAsOf h
  exact ⟨hmem, hasOf.trans (min_le_left _ _), hseq⟩

theorem BranchInv.hotMin_nonneg : 0 ≤ s.hotMin := by
  cases hp : s.persistWatermark with
  | none => simp [Store.hotMin, hp]
  | some p =>
      have hpos := (hinv.watermark p hp).1.1
      rw [Store.hotMin_eq hp]
      omega

theorem BranchInv.pickFor_isSome {n : TableSnapshot R V} (hn : n ∈ s.snapshots)
    (hasOf : n.snapshottedAtMicros ≤ rs.planAsOfMicros)
    (hseq : ∀ seq, rs.planCommitSeqUpper = some seq → n.commitSeqNum ≤ seq) : (s.pickFor rs).isSome = true := by
  obtain ⟨p, hp, hnp⟩ := (hinv.snapshots n hn).placed
  have hbound : n.snapshottedAtMicros ≤ computeSnapshotPickerAsOf rs.planAsOfMicros s.hotMin := by
    rw [computeSnapshotPickerAsOf, Store.hotMin_eq hp]
    omega
  rw [Option.isSome_iff_ne_none]
  intro hnone
  rw [Store.pickFor, Store.pickSnapshotAsOf, pickSnapshot, newest_eq_none, List.filter_eq_nil_iff] at hnone
  apply hnone n hn
  rw [Bool.and_eq_true, decide_eq_true_eq]
  refine ⟨hbound, ?_⟩
  cases hu : rs.planCommitSeqUpper with
  | none => rfl
  | some seq => exact decide_eq_true (hseq seq hu)

theorem BranchInv.sees_of_pickFor {n : TableSnapshot R V} (h : s.pickFor rs = some n) {e : LogEntry R V}
    (he : e ∈ L.entries) (hle : e.commitMicros ≤ n.snapshottedAtMicros) : rs.sees e = true := by
  obtain ⟨hn, hasOf, hseq⟩ := hinv.of_pickFor h
  exact hinv.sees_of_folded hn hasOf hseq he hle

theorem BranchInv.persisted_of_le_fence {e : LogEntry R V} (he : e ∈ L.entries)
    (hle : e.commitSeqNum ≤ s.fenceFor rs) : s.PersistedEntry e := by
  rcases (s.phaseOneFence_spec (wSnapOf (s.pickFor rs))).2.2 with hmem | heq
  · exact (hinv.fences _ hmem).persisted e he hle
  · rw [Store.fenceFor, heq] at hle
    cases hn : s.pickFor rs with
    | none =>
        have hpos := L.nonneg e he
        simp only [wSnapOf, hn, Option.map_none, Option.getD_none, snapshotSeqGenesis] at hle
        omega
    | some n =>
        simp only [wSnapOf, hn, Option.map_some, Option.getD_some] at hle
        exact (hinv.snapshots n (hinv.of_pickFor hn).1).settled.persisted e he hle

omit hinv in
/-- Every purge fence and the `W_snap` of the picked snapshot are at or below the fence. -/
theorem Store.le_fenceFor : (∀ pu ∈ s.purges, pu ≤ s.fenceFor rs) ∧
    ∀ n, s.pickFor rs = some n → n.commitSeqNum ≤ s.fenceFor rs := by
  obtain ⟨hpurges, hwsnap, -⟩ := s.phaseOneFence_spec (wSnapOf (s.pickFor rs))
  refine ⟨hpurges, fun n hn => ?_⟩
  have hw : wSnapOf (s.pickFor rs) = n.commitSeqNum := by simp [wSnapOf, hn]
  exact hw ▸ hwsnap

theorem BranchInv.mem_hot_of_fence {e : LogEntry R V} (he : e ∈ L.entries)
    (hlt : s.fenceFor rs < e.commitSeqNum) : e ∈ s.hot :=
  (hinv.mem_hot e).mpr ⟨he, fun pu hpu => lt_of_le_of_lt (Store.le_fenceFor.1 pu hpu) hlt⟩

/-- Which of the segments that hold a visible entry the plan of a state fetches: those past the picked snapshot. -/
theorem BranchInv.exists_pickedSegments_iff {e : LogEntry R V} (hsees : rs.sees e = true) :
    (∃ seg ∈ s.planSegments rs.planAsOfMicros s.hotMin rs.planCommitSeqUpper (s.pickFor rs),
        e ∈ s.readSegment seg) ↔
      ∃ v ∈ s.views, (∀ n, s.pickFor rs = some n → n.snapshottedAtMicros < v.maxTxCommitMicros) ∧
        e ∈ v.read := by
  have hcut : i64Min < s.hotMin := lt_of_lt_of_le (by decide) hinv.hotMin_nonneg
  rw [hinv.exists_planSegments_iff (fun n hn => hinv.snapshottedAt_lt (hinv.of_pickFor hn).1) hcut hsees]
  refine exists_congr (fun v => and_congr_right (fun hv => and_congr_right (fun _ => and_iff_right_of_imp ?_)))
  -- An entry the segment holds lies below the watermark.
  intro hev
  obtain ⟨-, p, hp, hep⟩ := hinv.stored v hv e hev
  have hmin := ((hinv.bounded v hv).micros e hev).1
  rw [Store.hotMin_eq hp]
  omega

/-- The plan of the state, with the hot tier there or not. -/
def Store.planOf (s : Store R V) (rs : ReadSnapshot) (hotPresent : Bool) : Plan R V :=
  planFrom rs.planAsOfMicros s.hotMin (s.pickFor rs) (s.fenceFor rs) hotPresent
    (s.planSegments rs.planAsOfMicros s.hotMin rs.planCommitSeqUpper (s.pickFor rs))

variable {hotPresent : Bool}

theorem BranchInv.mem_coldEntries_planOf (h0 : s.hotMin ≠ 0) {e : LogEntry R V} :
    e ∈ s.coldEntries rs (s.planOf rs hotPresent) ↔
      (∃ v ∈ s.views, (∀ n, s.pickFor rs = some n → n.snapshottedAtMicros < v.maxTxCommitMicros) ∧
        e ∈ v.read) ∧ e.commitSeqNum ≤ s.fenceFor rs ∧ rs.sees e = true := by
  have hrange : ∀ seg ∈ s.planSegments rs.planAsOfMicros s.hotMin rs.planCommitSeqUpper (s.pickFor rs),
      ∀ e ∈ s.readSegment seg, e.commitMicros < i64Max := by
    intro seg hseg e he
    obtain ⟨hmem, -⟩ := (Store.mem_segmentsForWindow_iff hinv.segments).mp hseg
    exact (L.inRange e (hinv.stored (s.view seg) (List.mem_map_of_mem hmem) e he).1.1).2
  rw [Store.planOf, Store.mem_coldEntries_planFrom h0 hrange]
  constructor
  · rintro ⟨hseg, hle, hsees⟩
    exact ⟨(hinv.exists_pickedSegments_iff hsees).mp hseg, hle, hsees⟩
  · rintro ⟨hv, hle, hsees⟩
    exact ⟨(hinv.exists_pickedSegments_iff hsees).mpr hv, hle, hsees⟩

end Tiers

/-! ## A read is right iff the leftovers agree -/

theorem TableSnapshot.Replays.lookup_rows {n : TableSnapshot R V} {L : BranchLog R V} (h : n.Replays L) (r : R) :
    n.rows.lookup r = newestEffect (L.upTo n.snapshottedAtMicros) r := by
  apply Option.ext
  intro v
  rw [InFlight.lookup_eq_some_iff_mem h.nodup, h.replay]

/-- Rows a read brings along: newer than everything it sees, with the timestamp of the far future. -/
structure OwnRows (L : BranchLog R V) (rs : ReadSnapshot) (own : List (LogEntry R V)) : Prop where
  separated : Separated LogEntry.version LogEntry.rowUuid {e | e ∈ own}
  newer : ∀ o ∈ own, ∀ e ∈ L.visibleTo rs, e.version < o.version
  above : ∀ o ∈ own, i64Max ≤ o.commitMicros

omit [DecidableEq R] in
theorem OwnRows.nil (L : BranchLog R V) (rs : ReadSnapshot) : OwnRows L rs [] :=
  ⟨by simp [Separated], by simp, by simp⟩

omit [DecidableEq R] in
/-- What the read sees and what it brings along have one entry per row and version. -/
theorem OwnRows.separated_append {L : BranchLog R V} {rs : ReadSnapshot} {own : List (LogEntry R V)}
    (h : OwnRows L rs own) :
    Separated LogEntry.version LogEntry.rowUuid {e | e ∈ L.visibleTo rs ++ own} := by
  intro e he e' he' hrow hver
  rcases List.mem_append.mp he with he | he <;> rcases List.mem_append.mp he' with he' | he'
  · exact L.separated_visibleTo rs e he e' he' hrow hver
  · exact absurd hver (h.newer e' he' e he).ne
  · exact absurd hver.symm (h.newer e he e' he').ne
  · exact h.separated e he e' he' hrow hver

theorem OwnRows.newestEffect_append {L : BranchLog R V} {rs : ReadSnapshot} {own : List (LogEntry R V)}
    (h : OwnRows L rs own) {r : R} (hr : ∃ e ∈ own, e.rowUuid = r) :
    newestEffect (L.visibleTo rs ++ own) r = newestEffect own r := by
  obtain ⟨e, rfl, hnew⟩ := exists_newestOf hr
  have hall : NewestOf (L.visibleTo rs ++ own) e := by
    refine ⟨⟨List.mem_append_right _ hnew.mem, rfl⟩, ?_⟩
    rintro b ⟨hb, hrow⟩
    rcases List.mem_append.mp hb with hb | hb
    · exact (h.newer e hnew.mem b hb).le
    · exact hnew.2 b ⟨hb, hrow⟩
  rw [newestEffect_eq_effect h.separated_append hall, newestEffect_eq_effect h.separated hnew]

theorem OwnRows.newestEffect_append_of_not {L : BranchLog R V} {rs : ReadSnapshot} {own : List (LogEntry R V)}
    {r : R} (hr : ¬ ∃ e ∈ own, e.rowUuid = r) :
    newestEffect (L.visibleTo rs ++ own) r = newestEffect (L.visibleTo rs) r := by
  refine outcome_congr (L.separated_visibleTo rs) (fun e hrow => ?_)
  rw [List.mem_append]
  exact ⟨fun he => he.resolve_right (fun he => hr ⟨e, he, hrow⟩), .inl⟩

omit [DecidableEq R] in
theorem foldedIn_eq_true_iff {snapshot : Option (TableSnapshot R V)} {n : TableSnapshot R V}
    (hn : snapshot = some n) {e : LogEntry R V} :
    foldedIn snapshot e = true ↔ e.commitMicros ≤ n.snapshottedAtMicros := by
  simp [foldedIn, hn]

/-- The hot entries a read ranks. -/
def Store.hotTier (s : Store R V) (rs : ReadSnapshot) (hotPresent : Bool) (own : List (LogEntry R V)) :
    List (LogEntry R V) :=
  s.hotEntries rs (s.planOf rs hotPresent) ++ own

/-- The cold entries a read ranks. -/
def Store.coldTier (s : Store R V) (rs : ReadSnapshot) (hotPresent : Bool) : List (LogEntry R V) :=
  s.coldEntries rs (s.planOf rs hotPresent)

section Exact

variable {s : Store R V} {L : BranchLog R V} {floor : Option Int} (hinv : BranchInv s L floor)
  (hreplay : s.SnapshotsReplay L)
  {rs : ReadSnapshot} {own : List (LogEntry R V)} (hown : OwnRows L rs own) {hotPresent : Bool}
  (hpresent : hotPresent = false → s.hot = [] ∧ own = []) (h0 : s.hotMin ≠ 0)
  (hfloor : floor.isSome → (s.pickFor rs).isSome)
include hinv

omit [DecidableEq R] in
include hpresent in
theorem BranchInv.mem_hotTier {e : LogEntry R V} :
    e ∈ s.hotTier rs hotPresent own ↔
      (e ∈ L.entries ∧ s.fenceFor rs < e.commitSeqNum ∧ rs.sees e = true) ∨ e ∈ own := by
  rw [Store.hotTier, List.mem_append, Store.planOf, Store.mem_hotEntries_planFrom]
  refine or_congr ⟨fun ⟨_, hhot, hlt, hsees⟩ => ⟨((hinv.mem_hot e).mp hhot).1, hlt, hsees⟩, ?_⟩ Iff.rfl
  rintro ⟨he, hlt, hsees⟩
  have hhot := hinv.mem_hot_of_fence he hlt
  refine ⟨?_, hhot, hlt, hsees⟩
  cases hotPresent with
  | true => rfl
  | false =>
      rw [(hpresent rfl).1] at hhot
      exact absurd hhot List.not_mem_nil

omit [DecidableEq R] in
include h0 in
theorem BranchInv.mem_coldTier {e : LogEntry R V} :
    e ∈ s.coldTier rs hotPresent ↔
      (∃ v ∈ s.views, (∀ n, s.pickFor rs = some n → n.snapshottedAtMicros < v.maxTxCommitMicros) ∧
        e ∈ v.read) ∧ e.commitSeqNum ≤ s.fenceFor rs ∧ rs.sees e = true :=
  hinv.mem_coldEntries_planOf h0

omit [DecidableEq R] in
include h0 in
theorem BranchInv.visible_of_mem_coldTier {e : LogEntry R V} (he : e ∈ s.coldTier rs hotPresent) :
    e ∈ L.visibleTo rs := by
  obtain ⟨⟨v, hv, -, hev⟩, -, hsees⟩ := (hinv.mem_coldTier h0).mp he
  exact BranchLog.mem_visibleTo.mpr ⟨(hinv.stored v hv e hev).1.1, hsees⟩

omit [DecidableEq R] in
include hpresent h0 in
/-- The tiers hold nothing but what is visible and what the read brings along. -/
theorem BranchInv.mem_visible_of_tiers {e : LogEntry R V}
    (he : e ∈ s.hotTier rs hotPresent own ++ s.coldTier rs hotPresent) : e ∈ L.visibleTo rs ++ own := by
  rcases List.mem_append.mp he with he | he
  · rcases (hinv.mem_hotTier hpresent).mp he with ⟨hent, -, hsees⟩ | hmine
    · exact List.mem_append_left _ (BranchLog.mem_visibleTo.mpr ⟨hent, hsees⟩)
    · exact List.mem_append_right _ hmine
  · exact List.mem_append_left _ (hinv.visible_of_mem_coldTier h0 he)

omit [DecidableEq R] in
include hown hpresent h0 in
/-- Everything hot is newer than everything cold: the fence separates the tiers. -/
theorem BranchInv.tiers_ordered :
    ∀ h ∈ s.hotTier rs hotPresent own, ∀ c ∈ s.coldTier rs hotPresent,
      c.version < h.version ∧ c.commitMicros ≤ h.commitMicros := by
  intro h hh c hc
  have hvisible := hinv.visible_of_mem_coldTier h0 hc
  have hent := (BranchLog.mem_visibleTo.mp hvisible).1
  obtain ⟨-, hle, -⟩ := (hinv.mem_coldTier h0).mp hc
  rcases (hinv.mem_hotTier hpresent).mp hh with ⟨hhent, hlt, -⟩ | hmine
  · exact ⟨LogEntry.version_lt_of_commitSeqNum_lt (by omega), (L.axes c hent h hhent).mp (by omega)⟩
  · exact ⟨hown.newer h hmine c hvisible, ((L.inRange c hent).2.le).trans (hown.above h hmine)⟩

omit [DecidableEq R] in
include hown in
/-- What the read brings along is past every snapshot. -/
theorem BranchInv.not_folded_of_own {n : TableSnapshot R V} (hn : s.pickFor rs = some n)
    {e : LogEntry R V} (he : e ∈ own) : n.snapshottedAtMicros < e.commitMicros :=
  lt_of_lt_of_le (hinv.snapshottedAt_lt (hinv.of_pickFor hn).1) (hown.above e he)

omit [DecidableEq R] in
include hown hpresent h0 in
/-- Of the part the snapshot folded, the tiers hold the leftovers. -/
theorem BranchInv.mem_tiers_of_le {n : TableSnapshot R V} (hn : s.pickFor rs = some n) {e : LogEntry R V}
    (hle : e.commitMicros ≤ n.snapshottedAtMicros) :
    e ∈ s.hotTier rs hotPresent own ++ s.coldTier rs hotPresent ↔ e ∈ s.leftovers n := by
  have hreach : e ∈ L.entries → e.commitSeqNum ≤ s.fenceFor rs := fun he =>
    ((hinv.snapshots n (hinv.of_pickFor hn).1).reaches e he hle).trans (Store.le_fenceFor.2 n hn)
  rw [List.mem_append, hinv.mem_hotTier hpresent, hinv.mem_coldTier h0, Store.mem_leftovers]
  constructor
  · rintro ((⟨he, hlt, -⟩ | hmine) | ⟨⟨v, hv, hpast, hev⟩, -, -⟩)
    · have := hreach he
      omega
    · have := hinv.not_folded_of_own hown hn hmine
      omega
    · exact ⟨hle, v, hv, hpast n hn, hev⟩
  · rintro ⟨-, v, hv, hpast, hev⟩
    have he := (hinv.stored v hv e hev).1.1
    refine .inr ⟨⟨v, hv, ?_, hev⟩, hreach he, hinv.sees_of_pickFor hn he hle⟩
    intro m hm
    obtain rfl := Option.some.inj (hn.symm.trans hm)
    exact hpast

omit [DecidableEq R] in
include hpresent h0 hfloor in
/-- Past the snapshot the tiers hold everything visible: the fence decides which tier. -/
theorem BranchInv.mem_tiers_of_visible {e : LogEntry R V} (he : e ∈ L.visibleTo rs)
    (hpast : ∀ n, s.pickFor rs = some n → n.snapshottedAtMicros < e.commitMicros) :
    e ∈ s.hotTier rs hotPresent own ++ s.coldTier rs hotPresent := by
  obtain ⟨hent, hsees⟩ := BranchLog.mem_visibleTo.mp he
  rw [List.mem_append, hinv.mem_hotTier hpresent, hinv.mem_coldTier h0]
  by_cases hle : e.commitSeqNum ≤ s.fenceFor rs
  · have hfloorLt : ∀ f, floor = some f → f < e.commitMicros := by
      intro f hf
      obtain ⟨n, hn⟩ := Option.isSome_iff_exists.mp (hfloor (hf ▸ rfl))
      exact lt_of_le_of_lt ((hinv.based f hf).2 n (hinv.of_pickFor hn).1) (hpast n hn)
    obtain ⟨v, hv, hev⟩ := hinv.complete e hent (hinv.persisted_of_le_fence hent hle) hfloorLt
    refine .inr ⟨⟨v, hv, ?_, hev⟩, hle, hsees⟩
    intro n hn
    exact lt_of_lt_of_le (hpast n hn) ((hinv.bounded v hv).micros e hev).2
  · exact .inl (.inl ⟨hent, by omega, hsees⟩)

omit [DecidableEq R] in
include hpresent h0 hfloor in
/-- Past the snapshot the tiers hold what the read brings along and the newer visible entries. -/
theorem BranchInv.mem_tiers_of_lt {n : TableSnapshot R V} (hn : s.pickFor rs = some n) {e : LogEntry R V}
    (hlt : n.snapshottedAtMicros < e.commitMicros) :
    e ∈ s.hotTier rs hotPresent own ++ s.coldTier rs hotPresent ↔ e ∈ own ++ s.pastSnapshot rs n := by
  constructor
  · intro he
    rcases List.mem_append.mp he with he | he
    · rcases (hinv.mem_hotTier hpresent).mp he with ⟨hent, hfence, hsees⟩ | hmine
      · exact List.mem_append_right _ (Store.mem_pastSnapshot.mpr
          ⟨.inl (hinv.mem_hot_of_fence hent hfence), hsees, hlt⟩)
      · exact List.mem_append_left _ hmine
    · obtain ⟨⟨v, hv, -, hev⟩, -, hsees⟩ := (hinv.mem_coldTier h0).mp he
      exact List.mem_append_right _ (Store.mem_pastSnapshot.mpr ⟨.inr ⟨v, hv, hev⟩, hsees, hlt⟩)
  · intro he
    rcases List.mem_append.mp he with hmine | he
    · exact List.mem_append_left _ ((hinv.mem_hotTier hpresent).mpr (.inr hmine))
    · obtain ⟨hplace, hsees, -⟩ := Store.mem_pastSnapshot.mp he
      have hent : e ∈ L.entries := by
        rcases hplace with hhot | ⟨v, hv, hev⟩
        · exact ((hinv.mem_hot e).mp hhot).1
        · exact (hinv.stored v hv e hev).1.1
      apply hinv.mem_tiers_of_visible hpresent h0 hfloor (BranchLog.mem_visibleTo.mpr ⟨hent, hsees⟩)
      intro m hm
      obtain rfl := Option.some.inj (hn.symm.trans hm)
      exact hlt

include hreplay hown in
/-- The snapshot holds the replay of the visible entries it folded. -/
theorem BranchInv.newestEffect_folded {n : TableSnapshot R V} (hn : s.pickFor rs = some n) (r : R) :
    newestEffect ((L.visibleTo rs ++ own).filter (foldedIn (s.pickFor rs))) r = n.rows.lookup r := by
  have hsnap := hreplay n (hinv.of_pickFor hn).1
  have hcongr : newestEffect ((L.visibleTo rs ++ own).filter (foldedIn (s.pickFor rs))) r =
      newestEffect (L.upTo n.snapshottedAtMicros) r := by
    refine outcome_congr (L.separated_upTo _) (fun e _ => ?_)
    rw [List.mem_filter, foldedIn_eq_true_iff hn, List.mem_append, BranchLog.mem_visibleTo,
      BranchLog.mem_upTo]
    constructor
    · rintro ⟨⟨hent, -⟩ | hmine, hle⟩
      · exact ⟨hent, hle⟩
      · have := hinv.not_folded_of_own hown hn hmine
        omega
    · rintro ⟨hent, hle⟩
      exact ⟨.inl ⟨hent, hinv.sees_of_pickFor hn hent hle⟩, hle⟩
  rw [hcongr, hsnap.lookup_rows]

include hreplay hown hpresent h0 hfloor in
/-- **A read of a branch** with the rows it brings along returns the replay of both exactly when the leftovers
    of its snapshot agree with the snapshot. -/
theorem BranchInv.readTiers_iff :
    (∀ r v, (r, v) ∈ mergeRows (mergeResolved (s.hotTier rs hotPresent own))
        (mergeResolved (s.coldTier rs hotPresent)) (s.planOf rs hotPresent).snapshotRows ↔
        newestEffect (L.visibleTo rs ++ own) r = some v) ↔
      s.LeftoversAgree rs own := by
  have hsub : ∀ e ∈ s.hotTier rs hotPresent own ++ s.coldTier rs hotPresent, e ∈ L.visibleTo rs ++ own :=
    fun e he => hinv.mem_visible_of_tiers hpresent h0 he
  have hnotFolded : ∀ e, foldedIn (s.pickFor rs) e = false ↔
      ∀ n, s.pickFor rs = some n → n.snapshottedAtMicros < e.commitMicros := by
    intro e
    cases hn : s.pickFor rs <;> simp [foldedIn]
  have hbase : ∀ e ∈ L.visibleTo rs ++ own, ∀ e' ∈ L.visibleTo rs ++ own,
      foldedIn (s.pickFor rs) e = true → foldedIn (s.pickFor rs) e' = false → e.version ≤ e'.version := by
    intro e he e' he' hfold hfold'
    cases hn : s.pickFor rs with
    | none => simp [foldedIn, hn] at hfold
    | some n =>
        have hle := (foldedIn_eq_true_iff hn).mp hfold
        have hlt := (hnotFolded e').mp hfold' n hn
        rcases List.mem_append.mp he with he | hmine
        · rcases List.mem_append.mp he' with he' | hmine'
          · exact (BranchLog.version_lt_of_commitMicros_lt (BranchLog.mem_visibleTo.mp he).1
              (BranchLog.mem_visibleTo.mp he').1 (by omega)).le
          · exact (hown.newer e' hmine' e he).le
        · have := hinv.not_folded_of_own hown hn hmine
          omega
  have habove : ∀ e ∈ L.visibleTo rs ++ own, foldedIn (s.pickFor rs) e = false →
      e ∈ s.hotTier rs hotPresent own ++ s.coldTier rs hotPresent := by
    intro e he hfold
    rcases List.mem_append.mp he with he | hmine
    · exact hinv.mem_tiers_of_visible hpresent h0 hfloor he ((hnotFolded e).mp hfold)
    · exact List.mem_append_left _ ((hinv.mem_hotTier hpresent).mpr (.inr hmine))
  have hrows : ∀ r v, (r, v) ∈ (s.planOf rs hotPresent).snapshotRows ↔
      newestEffect ((L.visibleTo rs ++ own).filter (foldedIn (s.pickFor rs))) r = some v := by
    intro r v
    rw [Store.planOf, snapshotRows_planFrom h0]
    cases hn : s.pickFor rs with
    | none => simp [foldedIn, newestEffect, outcome]
    | some n =>
        rw [← hn, hinv.newestEffect_folded hreplay hown hn,
          InFlight.lookup_eq_some_iff_mem (hreplay n (hinv.of_pickFor hn).1).nodup, hn]
        rfl
  rw [forall_mem_mergeRows_iff (foldedIn (s.pickFor rs)) hown.separated_append hsub
    (hinv.tiers_ordered hown hpresent h0) hbase habove hrows]
  -- What is left of both sides is about the rows that only leftovers mention.
  constructor
  · intro h n hn e he hnewer
    have hle := (Store.mem_leftovers.mp he).1
    have hmention := (hinv.mem_tiers_of_le hown hpresent h0 hn hle).mpr he
    have hall : ∀ a ∈ s.hotTier rs hotPresent own ++ s.coldTier rs hotPresent, a.rowUuid = e.rowUuid →
        foldedIn (s.pickFor rs) a = true := by
      intro a ha hrow
      rw [foldedIn_eq_true_iff hn]
      by_contra hlt
      exact hnewer a ((hinv.mem_tiers_of_lt hpresent h0 hfloor hn (by omega)).mp ha) hrow
    rw [← hinv.newestEffect_folded hreplay hown hn, ← h e.rowUuid ⟨e, hmention, rfl⟩ hall]
    refine outcome_congr (hown.separated_append.mono hsub) (fun a hrow => ?_)
    constructor
    · intro ha
      exact (hinv.mem_tiers_of_le hown hpresent h0 hn (Store.mem_leftovers.mp ha).1).mpr ha
    · intro ha
      exact (hinv.mem_tiers_of_le hown hpresent h0 hn
        ((foldedIn_eq_true_iff hn).mp (hall a ha hrow))).mp ha
  · rintro h r ⟨e, he, rfl⟩ hall
    have hfold := hall e he rfl
    cases hn : s.pickFor rs with
    | none => simp [foldedIn, hn] at hfold
    | some n =>
        have hmem : ∀ a, a.rowUuid = e.rowUuid →
            (a ∈ s.hotTier rs hotPresent own ++ s.coldTier rs hotPresent ↔ a ∈ s.leftovers n) := by
          intro a hrow
          constructor
          · intro ha
            exact (hinv.mem_tiers_of_le hown hpresent h0 hn
              ((foldedIn_eq_true_iff hn).mp (hall a ha hrow))).mp ha
          · intro ha
            exact (hinv.mem_tiers_of_le hown hpresent h0 hn (Store.mem_leftovers.mp ha).1).mpr ha
        have hnewer : ∀ a ∈ own ++ s.pastSnapshot rs n, a.rowUuid ≠ e.rowUuid := by
          intro a ha hrow
          have hlt : n.snapshottedAtMicros < a.commitMicros := by
            rcases List.mem_append.mp ha with hmine | ha
            · exact hinv.not_folded_of_own hown hn hmine
            · exact (Store.mem_pastSnapshot.mp ha).2.2
          have hle := (foldedIn_eq_true_iff hn).mp
            (hall a ((hinv.mem_tiers_of_lt hpresent h0 hfloor hn hlt).mpr ha) hrow)
          omega
        have hagree := h n hn e ((hmem e rfl).mp he) hnewer
        rw [← hn, hinv.newestEffect_folded hreplay hown hn, ← hagree]
        refine outcome_congr ?_ (fun a hrow => hmem a hrow)
        exact (hown.separated_append.mono hsub).mono
          (fun a ha => (hinv.mem_tiers_of_le hown hpresent h0 hn (Store.mem_leftovers.mp ha).1).mpr ha)

omit [DecidableEq R] in
/-- Before the first Persist there is no snapshot and everything is hot. -/
theorem BranchInv.prePersist (h0 : s.hotMin = 0) :
    s.snapshots = [] ∧ ∀ e, e ∈ s.hot ↔ e ∈ L.entries := by
  have hnone : ∀ p, s.persistWatermark ≠ some p := by
    intro p hp
    have hpos := (hinv.watermark p hp).1
    rw [Store.hotMin_eq hp] at h0
    omega
  constructor
  · apply List.eq_nil_iff_forall_not_mem.mpr
    intro n hn
    obtain ⟨p, hp, -⟩ := (hinv.snapshots n hn).placed
    exact hnone p hp
  · intro e
    refine ⟨fun he => ((hinv.mem_hot e).mp he).1, fun he => ?_⟩
    by_contra hcold
    obtain ⟨p, hp, -⟩ := hinv.persisted_of_not_mem_hot he hcold
    exact hnone p hp

end Exact

/-! ## The read of a branch -/

/-- The merge pipeline on a plan, with the rows the read brings along in the hot tier. -/
def Store.readPlanWith (s : Store R V) (rs : ReadSnapshot) (plan : Plan R V) (own : List (LogEntry R V)) :
    List (R × V) :=
  mergeRows (mergeResolved (s.hotEntries rs plan ++ own)) (mergeResolved (s.coldEntries rs plan))
    plan.snapshotRows

/-- The plan of a state, given what the existence probe of the hot logs says. -/
def Store.planWith (s : Store R V) (rs : ReadSnapshot) (hotPresent : Bool) : Plan R V :=
  if s.hotMin = 0 then prePersistPlan rs.planAsOfMicros else s.planOf rs hotPresent

/-- A read that brings `own` along returns the replay of what it sees and of `own`, no row twice. -/
def Store.ReadsWith (s : Store R V) (L : BranchLog R V) (rs : ReadSnapshot) (hotPresent : Bool)
    (own : List (LogEntry R V)) : Prop :=
  ((s.readPlanWith rs (s.planWith rs hotPresent) own).map Prod.fst).Nodup ∧
    ∀ r v, (r, v) ∈ s.readPlanWith rs (s.planWith rs hotPresent) own ↔
      newestEffect (L.visibleTo rs ++ own) r = some v

omit [DecidableEq R] in
theorem Store.plan_eq_planWith (s : Store R V) (rs : ReadSnapshot) :
    s.plan rs.planAsOfMicros rs.planCommitSeqUpper = s.planWith rs (!s.hot.isEmpty) := by
  by_cases h0 : s.hotMin = 0
  · simp [plan, planWith, hotMinAndSnapshotPick, h0]
  · rw [s.plan_eq_planFrom rs h0, planWith, if_neg h0, planOf]

theorem Store.readData_eq_readPlanWith (s : Store R V) (rs : ReadSnapshot) :
    s.readData rs = s.readPlanWith rs (s.planWith rs (!s.hot.isEmpty)) [] := by
  rw [readData, readPlan, s.plan_eq_planWith, readPlanWith, List.append_nil]

section Read

variable {s : Store R V} {L : BranchLog R V} {floor : Option Int} (hinv : BranchInv s L floor)
  (hreplay : s.SnapshotsReplay L)
  {rs : ReadSnapshot} {own : List (LogEntry R V)} (hown : OwnRows L rs own) {hotPresent : Bool}
include hinv

omit [DecidableEq R] in
theorem BranchInv.hotMin_ne_zero {v : SegmentView R V} (hv : v ∈ s.views) {e : LogEntry R V} (he : e ∈ v.read) :
    s.hotMin ≠ 0 := by
  obtain ⟨-, p, hp, -⟩ := hinv.stored v hv e he
  have hpos := (hinv.watermark p hp).1
  rw [Store.hotMin_eq hp]
  omega

omit [DecidableEq R] in
theorem BranchInv.mem_coldEntries_planWith {e : LogEntry R V} :
    e ∈ s.coldEntries rs (s.planWith rs hotPresent) ↔
      (∃ v ∈ s.views, (∀ n, s.pickFor rs = some n → n.snapshottedAtMicros < v.maxTxCommitMicros) ∧
        e ∈ v.read) ∧ e.commitSeqNum ≤ s.fenceFor rs ∧ rs.sees e = true := by
  by_cases h0 : s.hotMin = 0
  · rw [Store.planWith, if_pos h0]
    constructor
    · exact fun he => absurd he List.not_mem_nil
    · rintro ⟨⟨v, hv, -, hev⟩, -⟩
      exact absurd h0 (hinv.hotMin_ne_zero hv hev)
  · rw [Store.planWith, if_neg h0]
    exact hinv.mem_coldEntries_planOf h0

omit [DecidableEq R] in
theorem BranchInv.visible_of_mem_coldEntries {e : LogEntry R V}
    (he : e ∈ s.coldEntries rs (s.planWith rs hotPresent)) : e ∈ L.visibleTo rs := by
  obtain ⟨⟨v, hv, -, hev⟩, -, hsees⟩ := hinv.mem_coldEntries_planWith.mp he
  exact BranchLog.mem_visibleTo.mpr ⟨(hinv.stored v hv e hev).1.1, hsees⟩

omit [DecidableEq R] in
theorem BranchInv.snapshot_planWith :
    (s.planWith rs hotPresent).coldStorage.bind ColdStoragePlan.snapshot = s.pickFor rs := by
  by_cases h0 : s.hotMin = 0
  · rw [Store.planWith, if_pos h0, Store.pickFor, Store.pickSnapshotAsOf, (hinv.prePersist h0).1]
    rfl
  · rw [Store.planWith, if_neg h0, Store.planOf, planFrom, assemblePlan, planColdStorage]
    simp only [h0, if_false]
    cases s.pickFor rs with
    | none => split <;> rfl
    | some n => rfl

include hreplay in
theorem BranchInv.nodup_readPlanWith :
    ((s.readPlanWith rs (s.planWith rs hotPresent) own).map Prod.fst).Nodup := by
  apply nodup_map_fst_mergeRows
  rw [Plan.snapshotRows, hinv.snapshot_planWith]
  cases hn : s.pickFor rs with
  | none => exact List.nodup_nil
  | some n => exact (hreplay n (hinv.of_pickFor hn).1).nodup

include hown in
theorem BranchInv.mem_readPlanWith_prePersist (h0 : s.hotMin = 0) {r : R} {v : V} :
    (r, v) ∈ s.readPlanWith rs (s.planWith rs hotPresent) own ↔
      newestEffect (L.visibleTo rs ++ own) r = some v := by
  rw [Store.planWith, if_pos h0]
  refine mem_mergeRows_hot hown.separated_append (fun e => ?_)
  rw [List.mem_append, List.mem_append, Store.mem_hotEntries_prePersist, (hinv.prePersist h0).2,
    BranchLog.mem_visibleTo]

include hreplay hown in
/-- **A read of a branch is right iff the leftovers agree.** A branch with a floor must have a snapshot for
    the read to pick. -/
theorem BranchInv.readsWith_iff (hpresent : hotPresent = false → s.hot = [] ∧ own = [])
    (hfloor : floor.isSome → (s.pickFor rs).isSome) :
    s.ReadsWith L rs hotPresent own ↔ s.LeftoversAgree rs own := by
  rw [Store.ReadsWith, and_iff_right (hinv.nodup_readPlanWith hreplay)]
  by_cases h0 : s.hotMin = 0
  · refine iff_of_true (fun r v => hinv.mem_readPlanWith_prePersist hown h0) ?_
    intro n hn
    have hmem := (hinv.of_pickFor hn).1
    rw [(hinv.prePersist h0).1] at hmem
    exact absurd hmem List.not_mem_nil
  · rw [← hinv.readTiers_iff hreplay hown hpresent h0 hfloor, Store.planWith, if_neg h0]
    rfl

include hreplay in
theorem BranchInv.readData_iff (hfloor : floor.isSome → (s.pickFor rs).isSome) :
    (((s.readData rs).map Prod.fst).Nodup ∧
        ∀ r v, (r, v) ∈ s.readData rs ↔ replayLog (L.visibleTo rs) r = some v) ↔
      s.LeftoversAgree rs [] := by
  have hpresent : (!s.hot.isEmpty) = false → s.hot = [] ∧ ([] : List (LogEntry R V)) = [] :=
    fun h => ⟨by simpa using h, rfl⟩
  rw [← hinv.readsWith_iff hreplay (OwnRows.nil L rs) hpresent hfloor, Store.ReadsWith, ← s.readData_eq_readPlanWith rs,
    List.append_nil]
  refine and_congr_right (fun _ => forall_congr' (fun r => forall_congr' (fun v => ?_)))
  rw [replayLog, replay_apply (L.separated_visibleTo rs), newestEffect]

end Read

/-! ## Reads of an unforked table -/

/-- A read is right: it returns the replay of the visible entries, no row twice. -/
def Store.ReadsReplay (s : Store R V) (H : History R V) (rs : ReadSnapshot) : Prop :=
  ((s.readData rs).map Prod.fst).Nodup ∧
    ∀ r v, (r, v) ∈ s.readData rs ↔ replayLog (H.visibleTo rs) r = some v

section Unforked

variable {s : Store R V} {H : History R V} (hinv : Inv s H) (hreplay : s.SnapshotsReplay H.log)
include hinv

omit [DecidableEq R] in
/-- A read at the position of a snapshot picks that snapshot. -/
theorem Inv.pickFor_asOfMicros {n : TableSnapshot R V} (hn : n ∈ s.snapshots) :
    s.pickFor (.asOfMicros n.snapshottedAtMicros) = some n := by
  obtain ⟨p, hp, hnp, -⟩ := (hinv.snapshots n hn).covered
  have hbound : computeSnapshotPickerAsOf n.snapshottedAtMicros s.hotMin = n.snapshottedAtMicros := by
    simp [computeSnapshotPickerAsOf, Store.hotMin, hp, hnp]
  have heligible : n ∈ s.snapshots.filter (fun m =>
      decide (m.snapshottedAtMicros ≤ n.snapshottedAtMicros) &&
        (none : Option Int).all (fun seq => decide (m.commitSeqNum ≤ seq))) := by
    simpa using hn
  unfold Store.pickFor Store.pickSnapshotAsOf
  simp only [ReadSnapshot.planAsOfMicros, ReadSnapshot.planCommitSeqUpper, hbound]
  generalize hpick : pickSnapshot _ = picked
  cases picked with
  | none =>
      rw [pickSnapshot, newest_eq_none] at hpick
      rw [hpick] at heligible
      exact absurd heligible List.not_mem_nil
  | some m =>
      obtain ⟨hm, hmax⟩ := hinv.branch.of_pickSnapshot (fun k hk => (List.mem_filter.mp hk).1) hpick
      have hmn : m.snapshottedAtMicros ≤ n.snapshottedAtMicros := by
        simpa using (List.mem_filter.mp hm).2
      have hnm := (hmax n heligible).1
      rcases hinv.branch.snapshot_le (List.mem_filter.mp hm).1 hn hmn with rfl | hlt
      · rfl
      · omega

omit [DecidableEq R] in
theorem Inv.leftovers_eq (n : TableSnapshot R V) : s.leftovers n = s.staleEntries n := by
  have hread : (s.views.filter (fun v => decide (n.snapshottedAtMicros < v.maxTxCommitMicros))).flatMap
      SegmentView.read = (s.views.filter (fun v => decide (n.snapshottedAtMicros < v.maxTxCommitMicros))).flatMap
        SegmentView.rows :=
    List.flatMap_congr (fun v hv => (hinv.segments.exact_of_mem (List.mem_filter.mp hv).1).read_eq)
  rw [Store.leftovers, hread, Store.staleEntries]

include hreplay

theorem Inv.staleFreeFor_iff {n : TableSnapshot R V} (hn : n ∈ s.snapshots) :
    s.StaleFreeFor n ↔
      ∀ e ∈ s.leftovers n, newestEffect (s.leftovers n) e.rowUuid = n.rows.lookup e.rowUuid := by
  rw [Store.StaleFreeFor, hinv.leftovers_eq]
  refine forall_congr' (fun e => forall_congr' (fun _ => ?_))
  rw [hinv.newestEffect_coveredEntries hn, (hreplay n hn).lookup_rows]
  rfl

/-- The leftovers agree at every position exactly if no snapshot has misleading ones. -/
theorem Inv.leftoversAgree_iff_staleFree : (∀ rs, s.LeftoversAgree rs []) ↔ s.StaleFree := by
  constructor
  · intro h n hn
    rw [hinv.staleFreeFor_iff hreplay hn]
    intro e he
    refine h (.asOfMicros n.snapshottedAtMicros) n (hinv.pickFor_asOfMicros hn) e he (fun a ha => ?_)
    -- At the position of the snapshot nothing past it is visible.
    obtain ⟨-, hsees, hlt⟩ := Store.mem_pastSnapshot.mp ha
    have hle : a.commitMicros ≤ n.snapshottedAtMicros := of_decide_eq_true hsees
    omega
  · intro h rs n hn e he _
    have hmem := (hinv.branch.of_pickFor hn).1
    exact (hinv.staleFreeFor_iff hreplay hmem).mp (h n hmem) e he

end Unforked

/-- **Reads replay the history iff the state is stale-free.** In every state a run reaches (its Persists not
    clobbering an earlier segment, its Snapshots rewriting the partitions of the rows they replace), all reads
    return the replay of the visible history exactly when no segment past a snapshot misrepresents what the
    snapshot folded. -/
theorem readsReplay_iff_staleFree (cfg : PersistConfig R V) (ops : List (Op R V)) (s : Store R V)
    (hmeets : Runs.Meets (step cfg) (KeepsRows cfg) Store.init ops)
    (hrun : Runs.run (step cfg) Store.init ops = some s) :
    (∀ rs, s.ReadsReplay (historyOf ops) rs) ↔ s.StaleFree := by
  obtain ⟨hinv, hreplay⟩ := replays_run hmeets hrun
  have hreads : ∀ rs, s.ReadsReplay (historyOf ops) rs ↔ s.LeftoversAgree rs [] :=
    fun rs => hinv.branch.readData_iff hreplay (fun hfloor => by cases hfloor)
  rw [← hinv.leftoversAgree_iff_staleFree hreplay]
  exact forall_congr' hreads

/-- A row is upserted and deleted, both entries are persisted and folded, and a later Persist writes the
    unpurged upsert again, next to a newer one. -/
def deletedRowRun : List (Op Nat Nat) :=
  [.commit 10 (.single 1 (.upsert 5) 0), .commit 20 (.single 1 .delete 0), .persist none 25,
    .snapshot none [], .commit 30 (.single 2 (.upsert 7) 0), .persist none 35]

/-- A table partitioned by a key column that is 1 in every row; its deletes are merged tombstones, whose key is NULL. -/
def mergedTombstones : PersistConfig Nat Nat := ⟨fun _ => 1, 100, some ⟨fun _ => "1", fun _ => "", true, fun _ => true⟩⟩

/-- A row is upserted and taken through the lifecycle, then its tombstone. -/
def carriedRowRun : List (Op Nat Nat) :=
  [.commit 10 (.single 1 (.upsert 5) 0), .persist none 15, .snapshot none [], .purge,
    .commit 20 (.single 1 .delete 0), .persist none 25, .snapshot none [], .purge]

/-- The delete segment ends at the snapshot's position and is not fetched; the upsert segment straddles it
    and is: the deleted row comes back. In a partition that no tombstone touches it is carried over. -/
theorem deletedRowRun_not_readsReplay :
    (∃ s, Runs.run (step oneByteRows) Store.init deletedRowRun = some s ∧
      (1, 5) ∈ s.readData (.latestSeq 2) ∧
      replayLog ((historyOf deletedRowRun).visibleTo (.latestSeq 2)) 1 = none) ∧
    ∃ s, Runs.run (step mergedTombstones) Store.init carriedRowRun = some s ∧ s.StaleFree ∧
      (1, 5) ∈ s.readData (.latestSeq 1) ∧
      replayLog ((historyOf carriedRowRun).visibleTo (.latestSeq 1)) 1 = none := by
  have hread : (Runs.run (step oneByteRows) Store.init deletedRowRun).map
      (fun s => decide ((1, 5) ∈ s.readData (.latestSeq 2))) = some true := by decide +kernel
  have hcarried : (Runs.run (step mergedTombstones) Store.init carriedRowRun).map
      (fun s => decide (s.StaleFree ∧ (1, 5) ∈ s.readData (.latestSeq 1))) = some true := by decide +kernel
  obtain ⟨s, hrun, hmem⟩ := Option.map_eq_some_iff.mp hread
  obtain ⟨c, hcrun, hcend⟩ := Option.map_eq_some_iff.mp hcarried
  obtain ⟨hfree, hcmem⟩ := of_decide_eq_true hcend
  exact ⟨⟨s, hrun, of_decide_eq_true hmem, by decide +kernel⟩, c, hcrun, hfree, hcmem, by decide +kernel⟩

/-- The same run with a Purge after the snapshot, and a second round of the lifecycle. -/
def purgedRowRun : List (Op Nat Nat) :=
  [.commit 10 (.single 1 (.upsert 5) 0), .commit 20 (.single 1 .delete 0), .persist none 25,
    .snapshot none [], .purge, .commit 30 (.single 2 (.upsert 7) 0), .persist none 35,
    .snapshot (some 32) [], .purge]

/-- With the Purge in its place the run reads right. -/
theorem purgedRowRun_readsReplay :
    ∃ s, Runs.run (step oneByteRows) Store.init purgedRowRun = some s ∧
      ∀ rs, s.ReadsReplay (historyOf purgedRowRun) rs := by
  have hfree : (Runs.run (step oneByteRows) Store.init purgedRowRun).map
      (fun s => decide s.StaleFree) = some true := by decide +kernel
  obtain ⟨s, hrun, hfree⟩ := Option.map_eq_some_iff.mp hfree
  exact ⟨s, hrun, (readsReplay_iff_staleFree oneByteRows purgedRowRun s (by decide +kernel) hrun).mpr
    (of_decide_eq_true hfree)⟩

end Penca
