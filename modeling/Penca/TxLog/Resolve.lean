import Penca.TxLog.Flush

/-!
# `TxLog.Resolve` — resolving a position of a branch to a commit

`resolve_committed_tx` looks for a commit by number, by time or at the head of the branch. It asks the hot
`commit_tx_log` first and trusts a hit. On a miss it takes the one cold segment whose bounds admit the answer, and
scans its file.

Both shortcuts rest on the order of the two tiers: the hot log is the end of the history (`ColdInv.suffix`), and
the segments are disjoint stretches of it, so the latest segment that holds a match at all holds the latest match
(`Candidate`). Times need not be ordered for this.
-/

namespace Penca

variable {T X : Type}

/-! ## Positions -/

/-- The fork point of a request (`ForkPoint`): a commit number, or a time. -/
inductive ForkPosition where
  | commitSeqNum (seq : Int)
  | commitMicros (micros : Int)
  deriving DecidableEq, Repr

/-- The commit is one the position can mean; without a position, any is. -/
def matchesPosition : Option ForkPosition → CommitRow → Bool
  | some (.commitSeqNum k), w => decide (w.commitSeqNum = k)
  | some (.commitMicros t), w => decide (w.commitMicros ≤ t)
  | none, _                   => true

/-- What a search of the full history returns: the matching commit with the greatest number. -/
def Answers (history : List (CommitTxRow X)) (position : Option ForkPosition) : Option CommitRow → Prop
  | none   => ∀ c ∈ history, matchesPosition position c.toCommitRow = false
  | some w => ∃ c ∈ history, c.toCommitRow = w ∧ matchesPosition position w = true ∧
      ∀ c' ∈ history, matchesPosition position c'.toCommitRow = true → c'.commitSeqNum ≤ w.commitSeqNum

/-- `ORDER BY commit_seq_num DESC LIMIT 1`. -/
def latest (rows : List (CommitTxRow X)) : Option (CommitTxRow X) :=
  (rows.insertionSort (fun a b => b.commitSeqNum ≤ a.commitSeqNum)).head?

theorem latest_eq_none {rows : List (CommitTxRow X)} : latest rows = none ↔ rows = [] := by
  rw [latest, List.head?_eq_none_iff, ← List.length_eq_zero_iff, List.length_insertionSort, List.length_eq_zero_iff]

theorem of_latest {rows : List (CommitTxRow X)} {c : CommitTxRow X} (h : latest rows = some c) :
    c ∈ rows ∧ ∀ c' ∈ rows, c'.commitSeqNum ≤ c.commitSeqNum := by
  obtain ⟨tail, htail⟩ := List.head?_eq_some_iff.mp h
  have hmem : ∀ c', c' ∈ rows ↔ c' ∈ c :: tail := fun c' => by rw [← htail, List.mem_insertionSort]
  have : Std.Total (fun a b : CommitTxRow X => b.commitSeqNum ≤ a.commitSeqNum) := ⟨fun a b => le_total _ _⟩
  have : IsTrans (CommitTxRow X) (fun a b => b.commitSeqNum ≤ a.commitSeqNum) := ⟨fun a b c hab hbc => hbc.trans hab⟩
  have hsorted := List.pairwise_insertionSort (fun a b : CommitTxRow X => b.commitSeqNum ≤ a.commitSeqNum) rows
  rw [htail] at hsorted
  refine ⟨(hmem c).mpr List.mem_cons_self, ?_⟩
  intro c' hc'
  rcases List.mem_cons.mp ((hmem c').mp hc') with rfl | hc'
  · exact le_refl _
  · exact (List.pairwise_cons.mp hsorted).1 c' hc'

/-! ## The two halves -/

/-- `seek_committed_tx_in_batches`: one row of the scan. -/
def seekRow (position : Option ForkPosition) (best : Option CommitRow) (r : TxLogRecord) : Option CommitRow :=
  if matchesPosition position ⟨r.commitSeqNum, r.commitMicros⟩ &&
      best.all (fun b => decide (b.commitSeqNum < r.commitSeqNum)) then
    some ⟨r.commitSeqNum, r.commitMicros⟩
  else best

/-- `seek_committed_tx_in_batches`. -/
def seekCommittedTxInBatches (batches : List (List TxLogRecord)) (position : Option ForkPosition) : Option CommitRow :=
  batches.foldl (fun best batch => batch.foldl (seekRow position) best) none

/-- A cold file that is not there. -/
inductive ResolveError where
  | coldStorage
  deriving DecidableEq, Repr

namespace TxLogStore

/-- `resolve_committed_tx_from_hot`. -/
def resolveCommittedTxFromHot (s : TxLogStore T X) (position : Option ForkPosition) : Option CommitRow :=
  match position with
  | some (.commitSeqNum k) => (s.commitTxLog.find? (fun c => c.commitSeqNum = k)).map CommitTxRow.toCommitRow
  | some (.commitMicros t) => (latest (s.commitTxLog.filter (fun c => c.commitMicros ≤ t))).map CommitTxRow.toCommitRow
  | none                   => (latest s.commitTxLog).map CommitTxRow.toCommitRow

/-- `read_committed_tx_log_segments`. -/
def readCommittedTxLogSegments (s : TxLogStore T X) : List TxLogSegment :=
  s.committedTxLogSegments.insertionSort (fun a b => a.minCommitSeqNum ≤ b.minCommitSeqNum)

/-- The one segment that can hold the answer. -/
def candidateSegment (segments : List TxLogSegment) : Option ForkPosition → Option TxLogSegment
  | some (.commitSeqNum k) =>
      segments.find? (fun seg => decide (seg.minCommitSeqNum ≤ k) && decide (k ≤ seg.maxCommitSeqNum))
  | some (.commitMicros t) => segments.reverse.find? (fun seg => decide (seg.minCommitMicros ≤ t))
  | none                   => segments.getLast?

/-- `resolve_committed_tx_from_cold`. -/
def resolveCommittedTxFromCold (s : TxLogStore T X) (position : Option ForkPosition) :
    Except ResolveError (Option CommitRow) :=
  match candidateSegment s.readCommittedTxLogSegments position with
  | none     => .ok none
  | some seg =>
      match s.txLogFiles seg.uuid with
      | none      => .error .coldStorage
      | some rows => .ok (seekCommittedTxInBatches [rows] position)

/-- `resolve_committed_tx`. -/
def resolveCommittedTx (s : TxLogStore T X) (position : Option ForkPosition) : Except ResolveError (Option CommitRow) :=
  match s.resolveCommittedTxFromHot position with
  | some w => .ok (some w)
  | none   => s.resolveCommittedTxFromCold position

end TxLogStore

/-! ## The scan -/

/-- What the scan knows after some rows. -/
def SeekBest (position : Option ForkPosition) (rows : List TxLogRecord) : Option CommitRow → Prop
  | none   => ∀ r ∈ rows, matchesPosition position ⟨r.commitSeqNum, r.commitMicros⟩ = false
  | some w => (∃ r ∈ rows, w = ⟨r.commitSeqNum, r.commitMicros⟩) ∧ matchesPosition position w = true ∧
      ∀ r ∈ rows, matchesPosition position ⟨r.commitSeqNum, r.commitMicros⟩ = true → r.commitSeqNum ≤ w.commitSeqNum

theorem SeekBest.seekRow {position : Option ForkPosition} {rows : List TxLogRecord} {best : Option CommitRow}
    (h : SeekBest position rows best) (r : TxLogRecord) :
    SeekBest position (rows ++ [r]) (Penca.seekRow position best r) := by
  unfold Penca.seekRow
  by_cases hm : matchesPosition position ⟨r.commitSeqNum, r.commitMicros⟩ = true
  · by_cases hbest : best.all (fun b => decide (b.commitSeqNum < r.commitSeqNum)) = true
    · rw [if_pos (by rw [hm, hbest]; rfl)]
      refine ⟨⟨r, List.mem_append_right _ List.mem_cons_self, rfl⟩, hm, ?_⟩
      intro r' hr' hm'
      rcases List.mem_append.mp hr' with hr' | hr'
      · cases best with
        | none => rw [h r' hr'] at hm'; cases hm'
        | some b =>
            have hlt : b.commitSeqNum < r.commitSeqNum := by simpa using hbest
            exact (h.2.2 r' hr' hm').trans hlt.le
      · rw [List.mem_singleton.mp hr']
    · rw [if_neg (by rw [hm]; simpa using hbest)]
      cases best with
      | none => exact absurd rfl hbest
      | some b =>
          obtain ⟨⟨r₀, hr₀, heq⟩, hb, hmax⟩ := h
          refine ⟨⟨r₀, List.mem_append_left _ hr₀, heq⟩, hb, ?_⟩
          intro r' hr' hm'
          rcases List.mem_append.mp hr' with hr' | hr'
          · exact hmax r' hr' hm'
          · rw [List.mem_singleton.mp hr']
            simpa using hbest
  · rw [if_neg (by simp [hm])]
    rw [Bool.not_eq_true] at hm
    cases best with
    | none =>
        intro r' hr'
        rcases List.mem_append.mp hr' with hr' | hr'
        · exact h r' hr'
        · rw [List.mem_singleton.mp hr']
          exact hm
    | some b =>
        obtain ⟨⟨r₀, hr₀, heq⟩, hb, hmax⟩ := h
        refine ⟨⟨r₀, List.mem_append_left _ hr₀, heq⟩, hb, ?_⟩
        intro r' hr' hm'
        rcases List.mem_append.mp hr' with hr' | hr'
        · exact hmax r' hr' hm'
        · rw [List.mem_singleton.mp hr', hm] at hm'
          cases hm'

theorem seekBest_foldl (position : Option ForkPosition) (rows : List TxLogRecord) :
    SeekBest position rows (rows.foldl (seekRow position) none) := by
  induction rows using List.reverseRecOn with
  | nil => exact fun r hr => absurd hr List.not_mem_nil
  | append_singleton rows r ih =>
      rw [List.foldl_append]
      exact ih.seekRow r

/-! ## The hot half -/

namespace TxLogStore

variable {seed : Nat} {s : TxLogStore T X}

/-- A hot hit is the latest match of the hot log; a miss means that it has no match. -/
theorem resolveCommittedTxFromHot_spec (s : TxLogStore T X) (position : Option ForkPosition) :
    Answers s.commitTxLog position (s.resolveCommittedTxFromHot position) := by
  cases position with
  | none =>
      cases hc : latest s.commitTxLog with
      | none =>
          simp only [resolveCommittedTxFromHot, hc, Option.map_none]
          rw [latest_eq_none.mp hc]
          exact fun c hmem => absurd hmem List.not_mem_nil
      | some c =>
          simp only [resolveCommittedTxFromHot, hc, Option.map_some]
          obtain ⟨hmem, hmax⟩ := of_latest hc
          exact ⟨c, hmem, rfl, rfl, fun c' hc' _ => hmax c' hc'⟩
  | some p =>
      cases p with
      | commitSeqNum k =>
          cases hc : s.commitTxLog.find? (fun c => c.commitSeqNum = k) with
          | none =>
              simp only [resolveCommittedTxFromHot, hc, Option.map_none]
              exact fun c hmem => by simpa [matchesPosition] using List.find?_eq_none.mp hc c hmem
          | some c =>
              simp only [resolveCommittedTxFromHot, hc, Option.map_some]
              have hk : c.commitSeqNum = k := by simpa using List.find?_some hc
              refine ⟨c, List.mem_of_find?_eq_some hc, rfl, decide_eq_true hk, ?_⟩
              intro c' _ hm
              exact ((of_decide_eq_true hm : c'.commitSeqNum = k).trans hk.symm).le
      | commitMicros t =>
          cases hc : latest (s.commitTxLog.filter (fun c => c.commitMicros ≤ t)) with
          | none =>
              simp only [resolveCommittedTxFromHot, hc, Option.map_none]
              intro c hmem
              have hnot := List.filter_eq_nil_iff.mp (latest_eq_none.mp hc) c hmem
              simpa [matchesPosition] using hnot
          | some c =>
              simp only [resolveCommittedTxFromHot, hc, Option.map_some]
              obtain ⟨hmem, hmax⟩ := of_latest hc
              obtain ⟨hin, hle⟩ := List.mem_filter.mp hmem
              exact ⟨c, hin, rfl, hle, fun c' hc' hm => hmax c' (List.mem_filter.mpr ⟨hc', hm⟩)⟩

/-! ## The cold half -/

/-- The segment's range holds a matching commit. -/
def HasMatch (s : TxLogStore T X) (position : Option ForkPosition) (seg : TxLogSegment) : Prop :=
  ∃ c ∈ s.history, (seg.minCommitSeqNum ≤ c.commitSeqNum ∧ c.commitSeqNum ≤ seg.maxCommitSeqNum) ∧
    matchesPosition position c.toCommitRow = true

/-- The segment that holds the latest match of the cold log. -/
structure Candidate (s : TxLogStore T X) (position : Option ForkPosition) (seg : TxLogSegment) : Prop where
  mem : seg ∈ s.committedTxLogSegments
  hasMatch : s.HasMatch position seg
  latest : ∀ seg' ∈ s.committedTxLogSegments, s.HasMatch position seg' →
    seg' = seg ∨ seg'.maxCommitSeqNum < seg.minCommitSeqNum

/-- `*micros.iter().min()`: at or below every time, and one of them. -/
theorem foldl_min_spec (rows : List (CommitTxRow X)) (m : Int) :
    (rows.foldl (fun m c => min m c.commitMicros) m ≤ m ∧
      ∀ c ∈ rows, rows.foldl (fun m c => min m c.commitMicros) m ≤ c.commitMicros) ∧
      (rows.foldl (fun m c => min m c.commitMicros) m = m ∨
        ∃ c ∈ rows, rows.foldl (fun m c => min m c.commitMicros) m = c.commitMicros) := by
  induction rows generalizing m with
  | nil => exact ⟨⟨le_refl _, fun c hc => absurd hc List.not_mem_nil⟩, .inl rfl⟩
  | cons a rows ih =>
      obtain ⟨⟨hle, hall⟩, hone⟩ := ih (min m a.commitMicros)
      rw [List.foldl_cons]
      refine ⟨⟨hle.trans (min_le_left _ _), ?_⟩, ?_⟩
      · intro c hc
        rcases List.mem_cons.mp hc with rfl | hc
        · exact hle.trans (min_le_right _ _)
        · exact hall c hc
      · rcases hone with heq | ⟨c, hc, heq⟩
        · rcases min_choice m a.commitMicros with hm | hm
          · exact .inl (heq.trans hm)
          · exact .inr ⟨a, List.mem_cons_self, heq.trans hm⟩
        · exact .inr ⟨c, List.mem_cons_of_mem _ hc, heq⟩

section Cold

variable (h : s.ColdInv seed) {position : Option ForkPosition}
include h

theorem ColdInv.of_committed {seg : TxLogSegment} (hseg : seg ∈ s.committedTxLogSegments) :
    ∃ row rows, s.Stretch row rows ∧ seg = { newTxLogSegment row rows with committed := true } ∧
      s.txLogFiles seg.uuid = some ((row :: rows).map CommitTxRow.record) := by
  obtain ⟨hmem, hc⟩ := List.mem_filter.mp hseg
  exact h.stored seg hmem hc

/-- The test on the bounds of a segment finds out whether it holds a match. -/
theorem ColdInv.hasMatch_micros_iff {seg : TxLogSegment} (hseg : seg ∈ s.committedTxLogSegments) {t : Int} :
    seg.minCommitMicros ≤ t ↔ s.HasMatch (some (.commitMicros t)) seg := by
  obtain ⟨row, rows, hs, rfl, -⟩ := h.of_committed hseg
  obtain ⟨⟨hle, hall⟩, hone⟩ := foldl_min_spec rows row.commitMicros
  constructor
  · intro hmin
    have hfound : ∃ c ∈ row :: rows, c.commitMicros ≤ t := by
      rcases hone with heq | ⟨c, hc, heq⟩
      · exact ⟨row, List.mem_cons_self, heq ▸ hmin⟩
      · exact ⟨c, List.mem_cons_of_mem _ hc, heq ▸ hmin⟩
    obtain ⟨c, hc, hct⟩ := hfound
    obtain ⟨hmem, hrange⟩ := hs.mem_iff.mp hc
    exact ⟨c, hmem, hrange, decide_eq_true hct⟩
  · rintro ⟨c, hc, hrange, hm⟩
    have hct : c.commitMicros ≤ t := of_decide_eq_true hm
    have hin : c ∈ row :: rows := hs.mem_iff.mpr ⟨hc, hrange⟩
    rcases List.mem_cons.mp hin with rfl | hin
    · exact hle.trans hct
    · exact (hall c hin).trans hct

theorem ColdInv.hasMatch_none {seg : TxLogSegment} (hseg : seg ∈ s.committedTxLogSegments) :
    s.HasMatch none seg := by
  obtain ⟨row, rows, hs, rfl, -⟩ := h.of_committed hseg
  obtain ⟨hmem, hrange⟩ := hs.mem_iff.mp List.mem_cons_self
  exact ⟨row, hmem, hrange, rfl⟩

theorem ColdInv.hasMatch_seq_iff {seg : TxLogSegment} (hseg : seg ∈ s.committedTxLogSegments) {k : Int} :
    (seg.minCommitSeqNum ≤ k ∧ k ≤ seg.maxCommitSeqNum) ↔ s.HasMatch (some (.commitSeqNum k)) seg := by
  obtain ⟨hmem, hc⟩ := List.mem_filter.mp hseg
  have hbounds := h.segment_bounds hmem hc
  constructor
  · rintro ⟨hge, hle⟩
    obtain ⟨c, hc, rfl⟩ := h.numbered.exists_key_iff.mpr
      ⟨hbounds.2.1.trans hge, by have := h.counter; omega⟩
    exact ⟨c, hc, ⟨hge, hle⟩, decide_eq_true rfl⟩
  · rintro ⟨c, -, hrange, hm⟩
    rw [← (of_decide_eq_true hm : c.commitSeqNum = k)]
    exact hrange

/-- Of two segments, the one that does not start later ends before the other. -/
theorem ColdInv.lt_of_min_le {seg seg' : TxLogSegment} (hseg : seg ∈ s.committedTxLogSegments)
    (hseg' : seg' ∈ s.committedTxLogSegments) (hle : seg'.minCommitSeqNum ≤ seg.minCommitSeqNum) :
    seg' = seg ∨ seg'.maxCommitSeqNum < seg.minCommitSeqNum := by
  obtain ⟨hmem, hc⟩ := List.mem_filter.mp hseg
  obtain ⟨hmem', hc'⟩ := List.mem_filter.mp hseg'
  by_cases huuid : seg'.uuid = seg.uuid
  · exact .inl (List.inj_on_of_nodup_map h.uuids hmem' hmem huuid)
  · have hbounds := h.segment_bounds hmem hc
    rcases h.disjoint seg' hmem' seg hmem hc' hc huuid with hlt | hlt
    · exact .inr hlt
    · omega

omit h in
theorem mem_readCommittedTxLogSegments {seg : TxLogSegment} :
    seg ∈ s.readCommittedTxLogSegments ↔ seg ∈ s.committedTxLogSegments := List.mem_insertionSort _

/-- The last segment in the order of the numbers that passes a test that finds the matches. -/
theorem ColdInv.candidate_of_find {q : TxLogSegment → Bool}
    (hq : ∀ seg ∈ s.committedTxLogSegments, q seg = true ↔ s.HasMatch position seg) {seg : TxLogSegment}
    (hfind : s.readCommittedTxLogSegments.reverse.find? q = some seg) : s.Candidate position seg := by
  have : Std.Total (fun a b : TxLogSegment => a.minCommitSeqNum ≤ b.minCommitSeqNum) := ⟨fun a b => le_total _ _⟩
  have : IsTrans TxLogSegment (fun a b => a.minCommitSeqNum ≤ b.minCommitSeqNum) := ⟨fun a b c hab hbc => hab.trans hbc⟩
  have hsorted : s.readCommittedTxLogSegments.reverse.Pairwise (fun a b => b.minCommitSeqNum ≤ a.minCommitSeqNum) :=
    List.pairwise_reverse.mpr (List.pairwise_insertionSort (fun a b : TxLogSegment =>
      a.minCommitSeqNum ≤ b.minCommitSeqNum) _)
  obtain ⟨hqs, later, earlier, happ, hlater⟩ := List.find?_eq_some_iff_append.mp hfind
  rw [happ] at hsorted
  have hmem : ∀ seg', seg' ∈ s.committedTxLogSegments ↔ seg' ∈ later ++ seg :: earlier := by
    intro seg'
    rw [← happ, List.mem_reverse, mem_readCommittedTxLogSegments]
  have hseg : seg ∈ s.committedTxLogSegments := (hmem seg).mpr (List.mem_append_right _ List.mem_cons_self)
  refine ⟨hseg, (hq seg hseg).mp hqs, ?_⟩
  intro seg' hseg' hmatch
  rcases List.mem_append.mp ((hmem seg').mp hseg') with hin | hin
  · have hfails := hlater seg' hin
    rw [(hq seg' hseg').mpr hmatch] at hfails
    cases hfails
  · rcases List.mem_cons.mp hin with rfl | hin
    · exact .inl rfl
    · have hle := (List.pairwise_cons.mp (List.pairwise_append.mp hsorted).2.1).1 seg' hin
      exact h.lt_of_min_le hseg hseg' hle

/-- The segment the code picks is the candidate, and if it picks none there is no match in the cold log. -/
theorem ColdInv.candidateSegment_spec (position : Option ForkPosition) :
    match candidateSegment s.readCommittedTxLogSegments position with
    | none     => ∀ seg ∈ s.committedTxLogSegments, ¬ s.HasMatch position seg
    | some seg => s.Candidate position seg := by
  cases position with
  | none =>
      rw [candidateSegment, List.getLast?_eq_head?_reverse]
      cases hlast : s.readCommittedTxLogSegments.reverse.head? with
      | none =>
          intro seg hseg
          have hnil := List.reverse_eq_nil_iff.mp (List.head?_eq_none_iff.mp hlast)
          rw [← mem_readCommittedTxLogSegments, hnil] at hseg
          exact absurd hseg List.not_mem_nil
      | some seg =>
          refine h.candidate_of_find (q := fun _ => true) (fun seg hseg => ?_) ?_
          · exact ⟨fun _ => h.hasMatch_none hseg, fun _ => rfl⟩
          · obtain ⟨tail, htail⟩ := List.head?_eq_some_iff.mp hlast
            rw [htail]
            rfl
  | some p =>
      cases p with
      | commitSeqNum k =>
          have hq : ∀ seg ∈ s.committedTxLogSegments,
              (decide (seg.minCommitSeqNum ≤ k) && decide (k ≤ seg.maxCommitSeqNum)) = true ↔
                s.HasMatch (some (.commitSeqNum k)) seg := by
            intro seg hseg
            rw [Bool.and_eq_true, decide_eq_true_eq, decide_eq_true_eq]
            exact h.hasMatch_seq_iff hseg
          rw [candidateSegment]
          cases hfind : s.readCommittedTxLogSegments.find? (fun seg =>
              decide (seg.minCommitSeqNum ≤ k) && decide (k ≤ seg.maxCommitSeqNum)) with
          | none =>
              intro seg hseg hmatch
              exact List.find?_eq_none.mp hfind seg (mem_readCommittedTxLogSegments.mpr hseg) ((hq seg hseg).mpr hmatch)
          | some seg =>
              have hseg := mem_readCommittedTxLogSegments.mp (List.mem_of_find?_eq_some hfind)
              have htest := List.find?_some hfind
              have hfound := (hq seg hseg).mp htest
              refine ⟨hseg, hfound, ?_⟩
              -- Only one segment holds the number.
              intro seg' hseg' hmatch
              have hrange := (h.hasMatch_seq_iff hseg).mpr hfound
              have hrange' := (h.hasMatch_seq_iff hseg').mpr hmatch
              rcases le_total seg'.minCommitSeqNum seg.minCommitSeqNum with hle | hle
              · exact h.lt_of_min_le hseg hseg' hle
              · rcases h.lt_of_min_le hseg' hseg hle with heq | hlt
                · exact .inl heq.symm
                · omega
      | commitMicros t =>
          have hq : ∀ seg ∈ s.committedTxLogSegments, decide (seg.minCommitMicros ≤ t) = true ↔
              s.HasMatch (some (.commitMicros t)) seg := by
            intro seg hseg
            rw [decide_eq_true_eq]
            exact h.hasMatch_micros_iff hseg
          rw [candidateSegment]
          cases hfind : s.readCommittedTxLogSegments.reverse.find? (fun seg => decide (seg.minCommitMicros ≤ t)) with
          | none =>
              intro seg hseg hmatch
              have hin := List.mem_reverse.mpr (mem_readCommittedTxLogSegments.mpr hseg)
              exact List.find?_eq_none.mp hfind seg hin ((hq seg hseg).mpr hmatch)
          | some seg => exact h.candidate_of_find hq hfind

/-- A commit that is not in the hot log lies in a committed segment. -/
theorem ColdInv.exists_segment {c : CommitTxRow X} (hc : c ∈ s.history) (hgone : c ∉ s.commitTxLog) :
    ∃ seg ∈ s.committedTxLogSegments, seg.minCommitSeqNum ≤ c.commitSeqNum ∧ c.commitSeqNum ≤ seg.maxCommitSeqNum := by
  rcases h.kept c hc with hkept | hflushed
  · exact absurd hkept hgone
  · obtain ⟨seg, hseg, hcommitted, hin⟩ := h.covers _ (h.commitSeqNum_bounds hc).1 hflushed
    exact ⟨seg, List.mem_filter.mpr ⟨hseg, hcommitted⟩, hin⟩

/-- **The cold half is right** when the hot log has no match. -/
theorem ColdInv.resolveCommittedTxFromCold (hmiss : ∀ c ∈ s.commitTxLog, matchesPosition position c.toCommitRow = false) :
    ∃ r, s.resolveCommittedTxFromCold position = .ok r ∧ Answers s.history position r := by
  have hcold : ∀ c ∈ s.history, matchesPosition position c.toCommitRow = true →
      ∃ seg ∈ s.committedTxLogSegments, seg.minCommitSeqNum ≤ c.commitSeqNum ∧ c.commitSeqNum ≤ seg.maxCommitSeqNum := by
    intro c hc hm
    refine h.exists_segment hc (fun hhot => ?_)
    rw [hmiss c hhot] at hm
    cases hm
  have hspec := h.candidateSegment_spec position
  unfold TxLogStore.resolveCommittedTxFromCold
  cases hcand : candidateSegment s.readCommittedTxLogSegments position with
  | none =>
      rw [hcand] at hspec
      refine ⟨none, rfl, ?_⟩
      intro c hc
      by_contra hm
      rw [Bool.not_eq_false] at hm
      obtain ⟨seg, hseg, hrange⟩ := hcold c hc hm
      exact hspec seg hseg ⟨c, hc, hrange, hm⟩
  | some seg =>
      rw [hcand] at hspec
      obtain ⟨row, rows, hs, hsegEq, hfile⟩ := h.of_committed hspec.mem
      simp only [hfile]
      have hscan := seekBest_foldl position ((row :: rows).map CommitTxRow.record)
      have hrows : ∀ c ∈ row :: rows, c.record ∈ (row :: rows).map CommitTxRow.record :=
        fun c hc => List.mem_map_of_mem hc
      -- The candidate holds a match, so the scan finds one.
      obtain ⟨c₀, hc₀, hrange₀, hm₀⟩ := hspec.hasMatch
      have hin₀ : c₀ ∈ row :: rows := hs.mem_iff.mpr ⟨hc₀, by rw [hsegEq] at hrange₀; exact hrange₀⟩
      refine ⟨_, rfl, ?_⟩
      show Answers s.history position (((row :: rows).map CommitTxRow.record).foldl (seekRow position) none)
      cases hbest : ((row :: rows).map CommitTxRow.record).foldl (seekRow position) none with
      | none =>
          rw [hbest] at hscan
          have := hscan c₀.record (hrows c₀ hin₀)
          rw [show matchesPosition position ⟨c₀.record.commitSeqNum, c₀.record.commitMicros⟩ = true from hm₀] at this
          cases this
      | some w =>
          rw [hbest] at hscan
          obtain ⟨⟨r, hr, rfl⟩, hm, hmax⟩ := hscan
          obtain ⟨c, hc, rfl⟩ := List.mem_map.mp hr
          obtain ⟨hch, hcrange⟩ := hs.mem_iff.mp hc
          refine ⟨c, hch, rfl, hm, ?_⟩
          intro c' hc' hm'
          obtain ⟨seg', hseg', hrange'⟩ := hcold c' hc' hm'
          rcases hspec.latest seg' hseg' ⟨c', hc', hrange', hm'⟩ with rfl | hlt
          · have hin' : c' ∈ row :: rows := hs.mem_iff.mpr ⟨hc', by rw [hsegEq] at hrange'; exact hrange'⟩
            exact hmax c'.record (hrows c' hin') hm'
          · have hmin : seg.minCommitSeqNum = row.commitSeqNum := by rw [hsegEq]; rfl
            have hle : c'.commitSeqNum ≤ c.commitSeqNum := by omega
            exact hle

/-- What the hot log answers, the full history answers: the hot log is its end. -/
theorem ColdInv.answers_of_hot {w : CommitRow} (hw : Answers s.commitTxLog position (some w)) :
    Answers s.history position (some w) := by
  obtain ⟨c, hc, rfl, hm, hmax⟩ := hw
  refine ⟨c, h.trimmed.subset hc, rfl, hm, ?_⟩
  intro c' hc' hm'
  by_contra hlt
  exact hlt (hmax c' (h.suffix c hc c' hc' (not_le.mp hlt)) hm')

end Cold

/-- **A position resolves to what the full history says.** In every state reached by commits, Persists, Snapshots,
    Purges, `persist_tx_log` and `PurgeTxLog`, `resolve_committed_tx` succeeds and returns the commit with the
    number asked for, the latest one at or before the time asked for, or the newest one; and none only if the
    history has none. -/
theorem resolveCommittedTx_run [DecidableEq T] [DecidableEq X] {cfg : LifecycleConfig} {clock seed : Nat}
    {inherited : ForkCopy T seed} {evs : List (TxLogEvent T X)}
    (hrun : Runs.run (txLogStep cfg) (seeded clock seed inherited) evs = some s) (position : Option ForkPosition) :
    ∃ r, s.resolveCommittedTx position = .ok r ∧ Answers s.history position r := by
  have hinv := coldInv_run hrun
  have hhot := s.resolveCommittedTxFromHot_spec position
  unfold TxLogStore.resolveCommittedTx
  cases hres : s.resolveCommittedTxFromHot position with
  | none =>
      rw [hres] at hhot
      exact hinv.resolveCommittedTxFromCold hhot
  | some w =>
      rw [hres] at hhot
      exact ⟨some w, rfl, hinv.answers_of_hot hhot⟩

/-- The first commit is copied, purged and deleted from the hot log before the second commits at the same time;
    then the second goes the same way, and a third stays hot. -/
def tiedRun : List (TxLogEvent Nat Nat) :=
  [.autoCommit 1 [(0, .upsertLog)] "one" "ann", .lockTxLog (some 0) 0, .flushStatement .done, .flushStatement .done,
    .flushStatement .done, .flushStatement .done, .flushStatement .done, .flushStatement .done,
    .snapshot 0 0, .purge 0, .purgeTxLog, .collectStatement, .collectStatement, .collectStatement,
    .autoCommit 2 [(0, .upsertLog)] "two" "bob", .tick 12, .autoCommit 3 [(0, .deleteLog)] "three" "ann",
    .lockTxLog (some 0) 1, .flushStatement .done, .flushStatement .done,
    .flushStatement .done, .flushStatement .done, .flushStatement .done, .flushStatement .done,
    .snapshot 0 1, .purge 0, .purgeTxLog, .collectStatement, .collectStatement, .collectStatement]

/-- Time 10 lies in both segments; the second commit is the later of the two. -/
theorem resolveCommittedTx_tiedRun : ∃ s : TxLogStore Nat Nat,
    Runs.run (txLogStep ⟨5, 5, 0⟩) (seeded 10 0 (.empty 0)) tiedRun = some s ∧
      (s.commitTxLog.map CommitTxRow.txUuid = [3] ∧
        s.resolveCommittedTx (some (.commitMicros 10)) = .ok (some ⟨1, 10⟩) ∧
          s.resolveCommittedTx (some (.commitSeqNum 3)) = .ok none) ∧
      ∀ position, ∃ r, s.resolveCommittedTx position = .ok r ∧ Answers s.history position r := by
  have hend : (Runs.run (txLogStep ⟨5, 5, 0⟩) (seeded 10 0 (.empty 0)) tiedRun).map (fun s : TxLogStore Nat Nat => decide
      (s.commitTxLog.map CommitTxRow.txUuid = [3] ∧
        s.resolveCommittedTx (some (.commitMicros 10)) = .ok (some ⟨1, 10⟩) ∧
          s.resolveCommittedTx (some (.commitSeqNum 3)) = .ok none)) = some true := by
    decide +kernel
  obtain ⟨s, hrun, hs⟩ := Option.map_eq_some_iff.mp hend
  exact ⟨s, hrun, of_decide_eq_true hs, resolveCommittedTx_run hrun⟩

end TxLogStore

end Penca
