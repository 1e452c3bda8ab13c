import Penca.Fork.Copy

/-!
# `Fork.Catalog` — what a fork makes of the catalog

The catalog of a branch is three tables of the branch itself: `__penca_system__.schemas`, `.tables` and
`.indexes`. A fork copies their cold references like those of any table, and its first transaction writes
onto the child, as upserts, every row the parent's three tables show *when the fork is made*
(`materialize_metadata_from_source` reads as of the fork transaction's own `commit_micros`, not as of the
fork position).

- **One table** (`StoredInv.overlayReadsFork_iff`): the child shows the rows in force at the fork exactly when
  every row the parent still shows was in force at the fork, and the leftovers of the inherited snapshot agree
  on the rows that were not written again.
- **The catalog** (`catalogFork_iff`): the same for the three tables together, for every history of DDL and
  data commits and every lifecycle operation on them.
-/

namespace Penca

open Newest

variable {R V : Type}

/-! ## The rows of the fork transaction -/

/-- The rows inserted into an upsert log under one transaction. -/
def upsertsAt (commitSeqNum commitMicros : Int) (rows : List (R × V)) : List (LogEntry R V) :=
  rows.zipIdx.map (fun x =>
    { rowUuid := x.1.1, change := .upsert x.1.2, commitSeqNum := commitSeqNum, writeSeqNum := x.2,
      commitMicros := commitMicros })

section Upserts

variable {seq micros : Int} {rows : List (R × V)} {e : LogEntry R V}

theorem of_mem_upsertsAt (he : e ∈ upsertsAt seq micros rows) :
    e.commitSeqNum = seq ∧ e.commitMicros = micros ∧ ∃ v, (e.rowUuid, v) ∈ rows ∧ e.effect = some v := by
  obtain ⟨⟨⟨r, v⟩, k⟩, hmem, rfl⟩ := List.mem_map.mp he
  exact ⟨rfl, rfl, v, List.mem_of_getElem? (List.mem_zipIdx_iff_getElem?.mp hmem), rfl⟩

theorem exists_mem_upsertsAt {r : R} {v : V} (h : (r, v) ∈ rows) :
    ∃ e ∈ upsertsAt seq micros rows, e.rowUuid = r ∧ e.effect = some v := by
  obtain ⟨k, hk⟩ := List.mem_iff_getElem?.mp h
  exact ⟨_, List.mem_map.mpr ⟨((r, v), k), List.mem_zipIdx_iff_getElem?.mpr hk, rfl⟩, rfl, rfl⟩

theorem exists_upsertsAt_iff {r : R} :
    (∃ e ∈ upsertsAt seq micros rows, e.rowUuid = r) ↔ r ∈ rows.map Prod.fst := by
  constructor
  · rintro ⟨e, he, rfl⟩
    obtain ⟨-, -, v, hv, -⟩ := of_mem_upsertsAt he
    exact List.mem_map_of_mem hv
  · intro hr
    obtain ⟨⟨r, v⟩, hv, rfl⟩ := List.mem_map.mp hr
    obtain ⟨e, he, hrow, -⟩ := exists_mem_upsertsAt hv
    exact ⟨e, he, hrow⟩

/-- The rows of a read are distinct, so each is written once. -/
theorem upsertsAt_injOn (hnodup : (rows.map Prod.fst).Nodup) {e' : LogEntry R V}
    (he : e ∈ upsertsAt seq micros rows) (he' : e' ∈ upsertsAt seq micros rows)
    (hrow : e.rowUuid = e'.rowUuid) : e = e' := by
  have hkeys : (upsertsAt seq micros rows).map LogEntry.rowUuid = rows.map Prod.fst := by
    rw [upsertsAt, List.map_map]
    conv_rhs => rw [← List.zipIdx_map_fst 0 rows, List.map_map]
    rfl
  exact List.inj_on_of_nodup_map (hkeys ▸ hnodup) he he' hrow

theorem separated_upsertsAt (hnodup : (rows.map Prod.fst).Nodup) :
    Separated LogEntry.version LogEntry.rowUuid {e | e ∈ upsertsAt seq micros rows} :=
  fun _ he _ he' hrow _ => upsertsAt_injOn hnodup he he' hrow

theorem newestEffect_upsertsAt [DecidableEq R] (hnodup : (rows.map Prod.fst).Nodup) {r : R} {v : V} :
    newestEffect (upsertsAt seq micros rows) r = some v ↔ (r, v) ∈ rows := by
  by_cases hr : ∃ e ∈ upsertsAt seq micros rows, e.rowUuid = r
  · obtain ⟨e, rfl, hnew⟩ := exists_newestOf hr
    obtain ⟨-, -, w, hw, heffect⟩ := of_mem_upsertsAt hnew.mem
    rw [newestEffect_eq_effect (separated_upsertsAt hnodup) hnew, heffect, Option.some.injEq]
    constructor
    · rintro rfl
      exact hw
    · exact fun hv => congrArg Prod.snd (List.inj_on_of_nodup_map hnodup hw hv rfl)
  · have hfilter : (upsertsAt seq micros rows).filter (fun e => decide (e.rowUuid = r)) = [] := by
      rw [List.filter_eq_nil_iff]
      exact fun e he hrow => hr ⟨e, he, of_decide_eq_true hrow⟩
    have hnone : newestEffect (upsertsAt seq micros rows) r = none := by
      rw [newestEffect, outcome, hfilter]
      rfl
    rw [hnone]
    refine iff_of_false (by simp) (fun hv => hr ?_)
    exact exists_upsertsAt_iff.mpr (List.mem_map_of_mem hv)

end Upserts

/-! ## Rows laid over others -/

section Overlay

variable [DecidableEq R]

/-- A merge whose hot tier is newer than its cold tier: the rows of the hot tier, over the read without it. -/
theorem mem_mergeRows_overlay {hot cold : List (LogEntry R V)}
    (hsep : Separated LogEntry.version LogEntry.rowUuid {e | e ∈ hot ++ cold})
    (htier : ∀ h ∈ hot, ∀ c ∈ cold, c.version < h.version ∧ c.commitMicros ≤ h.commitMicros)
    {snapshotRows : List (R × V)} {r : R} {v : V} :
    (r, v) ∈ mergeRows (mergeResolved hot) (mergeResolved cold) snapshotRows ↔
      ((∃ e ∈ hot, e.rowUuid = r) ∧ newestEffect hot r = some v) ∨
        ((¬ ∃ e ∈ hot, e.rowUuid = r) ∧
          (r, v) ∈ mergeRows (mergeResolved []) (mergeResolved cold) snapshotRows) := by
  have hsepC : Separated LogEntry.version LogEntry.rowUuid {e | e ∈ [] ++ cold} :=
    hsep.mono (fun e he => List.mem_append_right _ he)
  rw [mem_mergeRows hsep htier, mem_mergeRows hsepC (by simp)]
  by_cases hhot : ∃ e ∈ hot, e.rowUuid = r
  · -- The newest entry of the row is hot.
    obtain ⟨e, rfl, hnew⟩ := exists_newestOf hhot
    have hall : NewestOf (hot ++ cold) e := by
      refine ⟨⟨List.mem_append_left _ hnew.mem, rfl⟩, ?_⟩
      rintro b ⟨hb, hrow⟩
      rcases List.mem_append.mp hb with hb | hb
      · exact hnew.2 b ⟨hb, hrow⟩
      · exact (htier e hnew.mem b hb).1.le
    have hsepH : Separated LogEntry.version LogEntry.rowUuid {e | e ∈ hot} :=
      hsep.mono (fun e he => List.mem_append_left _ he)
    rw [newestEffect_eq_effect hsep hall, newestEffect_eq_effect hsepH hnew]
    have hmention : ∃ b ∈ hot ++ cold, b.rowUuid = e.rowUuid := ⟨e, hall.mem, rfl⟩
    have hnot : ¬ ∀ b ∈ hot ++ cold, b.rowUuid ≠ e.rowUuid := fun h => h e hall.mem rfl
    simp only [hmention, hnot, hhot, true_and, false_and, or_false, not_true_eq_false]
  · have hmem : ∀ b, b.rowUuid = r → (b ∈ hot ++ cold ↔ b ∈ [] ++ cold) := by
      intro b hrow
      rw [List.mem_append, List.nil_append]
      exact ⟨fun hb => hb.resolve_left (fun hb => hhot ⟨b, hb, hrow⟩), .inr⟩
    have heffect : newestEffect (hot ++ cold) r = newestEffect ([] ++ cold) r := outcome_congr hsepC hmem
    have hmention : (∃ b ∈ hot ++ cold, b.rowUuid = r) ↔ ∃ b ∈ [] ++ cold, b.rowUuid = r :=
      exists_congr (fun b => and_congr_left (fun hrow => hmem b hrow))
    have hnone : (∀ b ∈ hot ++ cold, b.rowUuid ≠ r) ↔ ∀ b ∈ [] ++ cold, b.rowUuid ≠ r := by
      simpa only [not_exists, not_and] using not_congr hmention
    rw [heffect, hmention, hnone]
    simp only [hhot, false_and, not_false_eq_true, true_and, false_or]

omit [DecidableEq R] in
/-- Rows over a base say what `f` says iff they do and the base does elsewhere. -/
theorem forall_overlay_iff {rows : List (R × V)} (hnodup : (rows.map Prod.fst).Nodup) {base : R → V → Prop}
    {f : R → Option V} :
    (∀ r v, ((r, v) ∈ rows ∨ (r ∉ rows.map Prod.fst ∧ base r v)) ↔ f r = some v) ↔
      (∀ row ∈ rows, f row.1 = some row.2) ∧ ∀ r, r ∉ rows.map Prod.fst → ∀ v, base r v ↔ f r = some v := by
  constructor
  · intro h
    refine ⟨fun row hrow => (h row.1 row.2).mp (.inl hrow), ?_⟩
    intro r hr v
    rw [← h r v]
    constructor
    · exact fun hb => .inr ⟨hr, hb⟩
    · rintro (hrow | ⟨-, hb⟩)
      · exact absurd (List.mem_map_of_mem hrow) hr
      · exact hb
  · rintro ⟨hrows, hbase⟩ r v
    by_cases hr : r ∈ rows.map Prod.fst
    · obtain ⟨⟨r, w⟩, hw, rfl⟩ := List.mem_map.mp hr
      rw [hrows _ hw, Option.some.injEq]
      constructor
      · rintro (hv | ⟨hnot, -⟩)
        · exact congrArg Prod.snd (List.inj_on_of_nodup_map hnodup hw hv rfl)
        · exact absurd hr hnot
      · rintro rfl
        exact .inl hw
    · rw [← hbase r hr v]
      constructor
      · rintro (hv | ⟨-, hb⟩)
        · exact absurd (List.mem_map_of_mem hv) hr
        · exact hb
      · exact fun hb => .inr ⟨hr, hb⟩

end Overlay

/-! ## One table of the catalog -/

section OneTable

variable [DecidableEq R]

/-- `materialize_metadata_from_source` on one table: the rows the parent shows as of the fork transaction's own
    `commit_micros`, inserted under it. The `row_uuid` is derived from the object's uuid on either branch, so it
    is the same. -/
def Store.materializeMetadataFromSource (p child : Store R V) (fork : ForkPoint) (forkMicros : Int) :
    Store R V :=
  { child with hot := upsertsAt (fork.commitSeqNum + 1) forkMicros (p.readData (.asOfMicros forkMicros)) }

/-- `create_branch` on a table of the catalog. -/
def Store.createBranchCatalog (cfg : PersistConfig R V) (s : Store R V) (fork : ForkPoint)
    (step1Now forkMicros : Int) : Option (Store R V) :=
  (s.createBranch cfg fork step1Now forkMicros true).map (fun child =>
    (s.persistLocked cfg (some fork.commitMicros) step1Now).materializeMetadataFromSource child fork forkMicros)

/-- Every row the parent shows when the fork is made was in force at the fork. -/
def Store.InForceAtFork (p : Store R V) (H : History R V) (fork : ForkPoint) (forkMicros : Int) : Prop :=
  ∀ row ∈ p.readData (.asOfMicros forkMicros), replayLog (H.atFork fork) row.1 = some row.2

instance [DecidableEq V] (p : Store R V) (H : History R V) (fork : ForkPoint) (forkMicros : Int) :
    Decidable (p.InForceAtFork H fork forkMicros) :=
  inferInstanceAs (Decidable (∀ row ∈ p.readData (.asOfMicros forkMicros), _))

/-- The leftovers of the inherited snapshot agree with it, on the rows the fork transaction did not write. -/
def Store.InheritedLeftoversAgree (child : Store R V) : Prop :=
  ({ child with hot := [] } : Store R V).LeftoversAgree (.latestSeq (child.commitSeqCounter - 1)) child.hot

instance [DecidableEq V] (child : Store R V) : Decidable child.InheritedLeftoversAgree :=
  inferInstanceAs (Decidable (Store.LeftoversAgree _ _ _))

omit [DecidableEq R] in
/-- Hot rows past the fence that the read sees are all ranked. -/
theorem Store.hotEntries_planWith {s : Store R V} {rs : ReadSnapshot}
    (h : ∀ e ∈ s.hot, s.fenceFor rs < e.commitSeqNum ∧ rs.sees e = true) :
    s.hotEntries rs (s.planWith rs (!s.hot.isEmpty)) = s.hot := by
  by_cases hnil : s.hot = []
  · have hentries : ∀ plan, s.hotEntries rs plan = [] := by
      intro plan
      rw [hotEntries, hnil]
      cases plan.hotStorage <;> rfl
    rw [hentries, hnil]
  · have hpresent : (!s.hot.isEmpty) = true := by simpa using hnil
    rw [hpresent, planWith]
    by_cases h0 : s.hotMin = 0
    · rw [if_pos h0]
      show s.hot.filter _ = s.hot
      refine List.filter_eq_self.mpr (fun e he => ?_)
      simpa [hotVisible, planHotStorage, ReadSnapshot.sees_tightenForHot] using (h e he).2
    · rw [if_neg h0]
      show s.hot.filter _ = s.hot
      refine List.filter_eq_self.mpr (fun e he => ?_)
      simpa [hotVisible, planHotStorage, ReadSnapshot.sees_tightenForHot] using h e he

omit [DecidableEq R] in
theorem Store.hotEntries_of_nil {s : Store R V} (h : s.hot = []) (rs : ReadSnapshot) (plan : Plan R V) :
    s.hotEntries rs plan = [] := by
  rw [hotEntries, h]
  cases plan.hotStorage <;> rfl

/-- Hot rows in an empty hot tier are rows the read brings along. -/
theorem Store.readData_withHot {s : Store R V} {rs : ReadSnapshot} {own : List (LogEntry R V)}
    (hnil : s.hot = []) (h : ∀ e ∈ own, s.fenceFor rs < e.commitSeqNum ∧ rs.sees e = true) :
    ({ s with hot := own } : Store R V).readData rs = s.readPlanWith rs (s.planWith rs (!own.isEmpty)) own := by
  have hplan : ({ s with hot := own } : Store R V).planWith rs (!own.isEmpty) = s.planWith rs (!own.isEmpty) := rfl
  have hentries : ({ s with hot := own } : Store R V).hotEntries rs
      (({ s with hot := own } : Store R V).planWith rs (!own.isEmpty)) = own :=
    Store.hotEntries_planWith (s := { s with hot := own }) h
  rw [Store.readData_eq_readPlanWith]
  simp only [readPlanWith, List.append_nil, s.hotEntries_of_nil hnil, List.nil_append] at hentries ⊢
  rw [hentries, hplan]
  rfl

variable {p child : Store R V} {H : History R V} (hinv : StoredInv p H) {fork : ForkPoint} {forkMicros : Int}
  (hpersisted : ∀ e ∈ H.entries, e.commitSeqNum ≤ fork.commitSeqNum → p.PersistedEntry e)
  (hclock : p.ClockAdmits forkMicros) (hpos : 0 ≤ fork.commitSeqNum)
  (hchild : p.materializeForkColdReferences fork forkMicros = some child)
include hinv hchild

include hpos in
/-- The fence of a fresh child is the fork. -/
theorem StoredInv.child_fenceFor_le (rs : ReadSnapshot) : child.fenceFor rs ≤ fork.commitSeqNum := by
  have heq := (Store.child_eq hchild).1
  rcases (child.phaseOneFence_spec (wSnapOf (child.pickFor rs))).2.2 with hmem | hwsnap
  · rw [heq] at hmem
    rw [heq, Store.fenceFor, List.mem_singleton.mp hmem]
  · rw [Store.fenceFor, hwsnap]
    cases hn : child.pickFor rs with
    | none =>
        simp only [wSnapOf, Option.map_none, Option.getD_none, snapshotSeqGenesis]
        omega
    | some n =>
        have hmem : n ∈ child.snapshots := List.mem_of_mem_filter (mem_of_newest hn)
        rw [heq] at hmem
        exact (hinv.of_inheritedSnapshot (Option.mem_toList.mp hmem)).2.2

include hpersisted hclock hpos

/-- A read of the child with upserts of the fork transaction: these rows, over what it inherited. -/
theorem StoredInv.mem_readPlanWith_upsertsAt {rows : List (R × V)} (hnodup : (rows.map Prod.fst).Nodup)
    {micros : Int} (hmicros : forkMicros ≤ micros) {rs : ReadSnapshot} {hotPresent : Bool} {r : R} {v : V} :
    (r, v) ∈ child.readPlanWith rs (child.planWith rs hotPresent) (upsertsAt (fork.commitSeqNum + 1) micros rows) ↔
      (r, v) ∈ rows ∨ (r ∉ rows.map Prod.fst ∧ (r, v) ∈ mergeRows (mergeResolved [])
        (mergeResolved (child.coldEntries rs (child.planWith rs hotPresent)))
          (child.planWith rs hotPresent).snapshotRows) := by
  have hbranch := forkChild_inv hinv hpersisted hclock hpos hchild
  have hcold : ∀ c ∈ child.coldEntries rs (child.planWith rs hotPresent),
      c ∈ H.entries ∧ c.commitSeqNum ≤ fork.commitSeqNum := fun c hc =>
    BranchLog.mem_cut.mp (BranchLog.mem_visibleTo.mp (hbranch.visible_of_mem_coldEntries hc)).1
  have htier : ∀ h ∈ upsertsAt (fork.commitSeqNum + 1) micros rows,
      ∀ c ∈ child.coldEntries rs (child.planWith rs hotPresent),
        c.version < h.version ∧ c.commitMicros ≤ h.commitMicros := by
    intro h hh c hc
    obtain ⟨hseq, hat, -⟩ := of_mem_upsertsAt hh
    obtain ⟨hent, hle⟩ := hcold c hc
    obtain ⟨t, ht, hct⟩ := hinv.branch.clock c hent
    have := hclock.2 t ht
    exact ⟨LogEntry.version_lt_of_commitSeqNum_lt (by omega), by omega⟩
  have hsep : Separated LogEntry.version LogEntry.rowUuid {e | e ∈ upsertsAt (fork.commitSeqNum + 1) micros rows ++
      child.coldEntries rs (child.planWith rs hotPresent)} := by
    intro e he e' he' hrow hver
    rcases List.mem_append.mp he with he | he <;> rcases List.mem_append.mp he' with he' | he'
    · exact upsertsAt_injOn hnodup he he' hrow
    · exact absurd hver (htier e he e' he').1.ne'
    · exact absurd hver (htier e' he' e he).1.ne
    · exact H.separated e (hcold e he).1 e' (hcold e' he').1 hrow hver
  have hnil : child.hot = [] := by rw [(Store.child_eq hchild).1]; rfl
  rw [Store.readPlanWith, child.hotEntries_of_nil hnil, List.nil_append, mem_mergeRows_overlay hsep htier, exists_upsertsAt_iff,
    newestEffect_upsertsAt hnodup]
  exact or_congr_left (and_iff_right_of_imp (fun hrow => List.mem_map_of_mem hrow))

theorem StoredInv.overlayReadsFork_iff (hreplay : p.SnapshotsReplay H.log) :
    (p.materializeMetadataFromSource child fork forkMicros).ReadsFork H fork ↔
      p.InForceAtFork H fork forkMicros ∧
        (p.materializeMetadataFromSource child fork forkMicros).InheritedLeftoversAgree := by
  have hbranch := forkChild_inv hinv hpersisted hclock hpos hchild
  have hchildReplay := hinv.child_replays hchild hreplay
  have hcounter : child.commitSeqCounter - 1 = fork.commitSeqNum + 1 := by
    rw [(Store.child_eq hchild).1]
    show fork.commitSeqNum + 2 - 1 = fork.commitSeqNum + 1
    omega
  have hhot : child.hot = [] := by rw [(Store.child_eq hchild).1]; rfl
  have hbare : ({ child with hot := [] } : Store R V) = child := by rw [← hhot]
  set rows := p.readData (.asOfMicros forkMicros) with hrows
  have hnodup : (rows.map Prod.fst).Nodup := by
    rw [hrows, Store.readData_eq_readPlanWith]
    exact hinv.branch.nodup_readPlanWith hreplay
  set rs : ReadSnapshot := .latestSeq (fork.commitSeqNum + 1) with hrs
  set own := upsertsAt (fork.commitSeqNum + 1) forkMicros rows with hown
  set future := upsertsAt (fork.commitSeqNum + 1) i64Max rows with hfuture
  have hmaterialized : p.materializeMetadataFromSource child fork forkMicros = { child with hot := own } := rfl
  rw [hmaterialized]
  -- The read of the child is the read of what it inherited, with the rows of the fork transaction.
  have hread : ({ child with hot := own } : Store R V).readData rs =
      child.readPlanWith rs (child.planWith rs (!own.isEmpty)) own := by
    refine Store.readData_withHot hhot (fun e he => ?_)
    have hseq := (of_mem_upsertsAt he).1
    have hfence := hinv.child_fenceFor_le hpos hchild rs
    exact ⟨by omega, decide_eq_true hseq.le⟩
  have hle : fork.commitSeqNum ≤ fork.commitSeqNum + 1 := by omega
  have hownRows : OwnRows (H.log.cut fork.commitSeqNum) rs future := by
    refine ⟨separated_upsertsAt hnodup, ?_, fun o ho => (of_mem_upsertsAt ho).2.1.ge⟩
    intro o ho e he
    have hseq := (of_mem_upsertsAt ho).1
    have hcut := (BranchLog.mem_cut.mp (BranchLog.mem_visibleTo.mp he).1).2
    exact LogEntry.version_lt_of_commitSeqNum_lt (by omega)
  have hpresent : (!own.isEmpty) = false → child.hot = [] ∧ future = [] := by
    intro hempty
    have hnil : rows = [] := by simpa [hown, upsertsAt] using hempty
    exact ⟨hhot, by rw [hfuture, hnil]; rfl⟩
  have hagree : ({ child with hot := own } : Store R V).InheritedLeftoversAgree ↔
      child.ReadsWith (H.log.cut fork.commitSeqNum) rs (!own.isEmpty) future := by
    rw [hbranch.readsWith_iff hchildReplay hownRows hpresent (hinv.child_pickFor_isSome hpersisted hclock hpos hchild hle)]
    show ({ child with hot := [] } : Store R V).LeftoversAgree (.latestSeq (child.commitSeqCounter - 1)) own ↔ _
    rw [hbare, hcounter]
    exact Store.leftoversAgree_congr (fun r => exists_upsertsAt_iff.trans exists_upsertsAt_iff.symm)
  rw [hagree]
  unfold Store.ReadsFork Store.ReadsWith
  show ((({ child with hot := own } : Store R V).readData (.latestSeq (child.commitSeqCounter - 1))).map
    Prod.fst).Nodup ∧ (∀ r v, (r, v) ∈ ({ child with hot := own } : Store R V).readData
      (.latestSeq (child.commitSeqCounter - 1)) ↔ _) ↔ _
  rw [hcounter, hread, and_iff_right (hbranch.nodup_readPlanWith hchildReplay),
    and_iff_right (hbranch.nodup_readPlanWith hchildReplay)]
  simp only [hinv.mem_readPlanWith_upsertsAt hpersisted hclock hpos hchild hnodup (le_refl forkMicros),
    hinv.mem_readPlanWith_upsertsAt hpersisted hclock hpos hchild hnodup hclock.1.2.le, hown, hfuture]
  -- Both sides say the same of the rows the fork transaction wrote, and of the other rows.
  rw [forall_overlay_iff hnodup, forall_overlay_iff hnodup]
  refine and_congr_right (fun _ => ?_)
  rw [and_iff_right]
  · refine forall_congr' (fun r => forall_congr' (fun hr => forall_congr' (fun v => ?_)))
    rw [OwnRows.newestEffect_append_of_not (mt exists_upsertsAt_iff.mp hr), H.visibleTo_cut hle,
      H.replayLog_atFork]
  · intro row hrow
    rw [hownRows.newestEffect_append (exists_upsertsAt_iff.mpr (List.mem_map_of_mem hrow))]
    exact (newestEffect_upsertsAt hnodup).mpr hrow

end OneTable

/-! ## The catalog -/

/-- The tables of the schema `__penca_system__`. -/
inductive SystemTable where
  | schemas
  | tables
  | indexes
  deriving DecidableEq, Repr

/-- A row of `__penca_system__.schemas`, past its `schema_uuid`. -/
structure SchemaRow where
  schemaName : String
  description : String
  retentionDurationSeconds : Option Int
  snapshotDensitySeconds : Option Int
  deriving DecidableEq, Repr

/-- A row of `__penca_system__.tables`, past its `table_uuid`. -/
structure TableRow where
  tableName : String
  schemaUuid : Nat
  arrowSchema : List UInt8
  partitionKeys : List String
  clusteringKeys : List String
  primaryKeys : List String
  description : String
  retentionDurationSeconds : Option Int
  snapshotDensitySeconds : Option Int
  deriving DecidableEq, Repr

/-- A row of `__penca_system__.indexes`, past its `index_uuid`. -/
structure IndexRow where
  tableUuid : Nat
  indexName : String
  columns : List String
  indexType : Int
  deriving DecidableEq, Repr

/-- The rows of a system table, keyed by the uuid of the object they describe. -/
def SystemTable.Row : SystemTable → Type
  | .schemas => SchemaRow
  | .tables  => TableRow
  | .indexes => IndexRow

instance : ∀ t : SystemTable, DecidableEq t.Row
  | .schemas => inferInstanceAs (DecidableEq SchemaRow)
  | .tables  => inferInstanceAs (DecidableEq TableRow)
  | .indexes => inferInstanceAs (DecidableEq IndexRow)

/-- What is decidable of each system table is decidable of all. -/
instance SystemTable.decidableForall {P : SystemTable → Prop} [∀ t, Decidable (P t)] : Decidable (∀ t, P t) :=
  decidable_of_iff (P .schemas ∧ P .tables ∧ P .indexes)
    ⟨fun h => fun
      | .schemas => h.1
      | .tables  => h.2.1
      | .indexes => h.2.2,
    fun h => ⟨h _, h _, h _⟩⟩

/-- The catalog of a branch. -/
abbrev Catalog : Type := ∀ t : SystemTable, Store Nat t.Row

/-- Do something on each of the system tables. -/
def SystemTable.collect {β : SystemTable → Type} (f : ∀ t, Option (β t)) : Option (∀ t, β t) := do
  let schemas ← f .schemas
  let tables ← f .tables
  let indexes ← f .indexes
  some (fun
    | .schemas => schemas
    | .tables  => tables
    | .indexes => indexes)

theorem SystemTable.collect_eq_some {β : SystemTable → Type} {f : ∀ t, Option (β t)} {g : ∀ t, β t}
    (h : collect f = some g) (t : SystemTable) : f t = some (g t) := by
  obtain ⟨schemas, hschemas, h⟩ := Option.bind_eq_some_iff.mp h
  obtain ⟨tables, htables, h⟩ := Option.bind_eq_some_iff.mp h
  obtain ⟨indexes, hindexes, h⟩ := Option.bind_eq_some_iff.mp h
  cases h
  cases t with
  | schemas => exact hschemas
  | tables => exact htables
  | indexes => exact hindexes

/-- What happens to the catalog: a transaction commits (DDL writes rows of the system tables, any other
    commit writes none of them), or a lifecycle operation runs on a system table. -/
inductive CatalogOp where
  | commit (micros : Int) (writes : ∀ t : SystemTable, TxWrites Nat t.Row)
  | maintain (t : SystemTable) (op : TableOp Nat t.Row)

/-- Only `CatalogOp.commit` commits. -/
def TableOp.isCommit : TableOp R V → Bool
  | .op (.commit _ _) => true
  | _                 => false

/-- The operation as one table sees it. -/
def CatalogOp.on (t : SystemTable) : CatalogOp → Option (TableOp Nat t.Row)
  | .commit micros writes => some (.op (.commit micros (writes t)))
  | .maintain t' op       => if h : t' = t then some (h ▸ op) else none

/-- One operation on the catalog. The system tables are seeded without partition keys. -/
def catalogStep (cfg : ∀ t : SystemTable, PersistConfig Nat t.Row) (c : Catalog) : CatalogOp → Option Catalog
  | .commit micros writes =>
      SystemTable.collect (fun t => tableStep (cfg t).unpartitioned (c t) (.op (.commit micros (writes t))))
  | .maintain t op =>
      if op.isCommit then none else (tableStep (cfg t).unpartitioned (c t) op).map (Function.update c t)

/-- The empty catalog. -/
def Catalog.init : Catalog := fun _ => Store.init

/-- The operations of one table. -/
def opsOn (t : SystemTable) (ops : List CatalogOp) : List (TableOp Nat t.Row) := ops.filterMap (CatalogOp.on t)

/-- What the operations commit to one table. -/
def catalogHistory (ops : List CatalogOp) (t : SystemTable) : History Nat t.Row := tableHistoryOf (opsOn t ops)

/-- No Persist of a system table clobbers. -/
def CatalogNoClobber (cfg : ∀ t : SystemTable, PersistConfig Nat t.Row) (c : Catalog) (op : CatalogOp) : Prop :=
  ∀ t, ∀ o ∈ op.on t, TableNoClobber (cfg t) (c t) o

instance (cfg : ∀ t : SystemTable, PersistConfig Nat t.Row) (c : Catalog) (op : CatalogOp) :
    Decidable (CatalogNoClobber cfg c op) :=
  inferInstanceAs (Decidable (∀ t, ∀ o ∈ op.on t, TableNoClobber (cfg t) (c t) o))

/-- `create_branch` on the catalog. -/
def Catalog.createBranch (cfg : ∀ t : SystemTable, PersistConfig Nat t.Row) (c : Catalog) (fork : ForkPoint)
    (step1Now forkMicros : Int) : Option Catalog :=
  SystemTable.collect (fun t => (c t).createBranchCatalog (cfg t) fork step1Now forkMicros)

section Catalog

variable {cfg : ∀ t : SystemTable, PersistConfig Nat t.Row} {c c' : Catalog}

/-- A step of the catalog is a step of each table, or leaves it alone. -/
theorem catalogStep_on {op : CatalogOp} (h : catalogStep cfg c op = some c') (t : SystemTable) :
    (op.on t = none → c' t = c t) ∧ ∀ o, op.on t = some o → tableStep (cfg t).unpartitioned (c t) o = some (c' t) := by
  cases op with
  | commit micros writes =>
      refine ⟨fun hon => absurd hon (Option.some_ne_none _), ?_⟩
      intro o hon
      cases hon
      have hcollect : SystemTable.collect (fun t => tableStep (cfg t).unpartitioned (c t) (.op (.commit micros (writes t)))) =
          some c' := h
      exact SystemTable.collect_eq_some hcollect t
  | maintain t' op =>
      simp only [catalogStep, Option.ite_none_left_eq_some] at h
      obtain ⟨s, hs, hc'⟩ := Option.map_eq_some_iff.mp h.2
      subst hc'
      by_cases ht : t' = t
      · subst ht
        have hon : (CatalogOp.maintain t' op).on t' = some op := dif_pos rfl
        rw [hon]
        refine ⟨fun hnone => absurd hnone (Option.some_ne_none _), ?_⟩
        intro o ho
        cases ho
        rw [Function.update_self]
        exact hs
      · have hon : (CatalogOp.maintain t' op).on t = none := dif_neg ht
        rw [hon]
        refine ⟨fun _ => Function.update_of_ne (Ne.symm ht) _ _, ?_⟩
        intro o ho
        cases ho

theorem catalog_run_on {ops : List CatalogOp} (hrun : Runs.run (catalogStep cfg) c ops = some c')
    (t : SystemTable) : Runs.run (tableStep (cfg t).unpartitioned) (c t) (opsOn t ops) = some (c' t) :=
  Runs.run_component (fun _ _ _ h => catalogStep_on h t) hrun

theorem catalog_meets_on {ops : List CatalogOp}
    (hmeets : Runs.Meets (catalogStep cfg) (CatalogNoClobber cfg) c ops)
    (hrun : Runs.run (catalogStep cfg) c ops = some c') (t : SystemTable) :
    Runs.Meets (tableStep (cfg t).unpartitioned) (TableNoClobber (cfg t).unpartitioned) (c t) (opsOn t ops) :=
  Runs.meets_component (fun _ _ _ h => catalogStep_on h t) (fun _ _ o hguard ho => hguard t o ho) hmeets hrun

end Catalog

/-- **The catalog of a fork.** For every history of commits, DDL and lifecycle operations (no Persist, the
    flush of the fork included, clobbering) and every committed fork position: the child's schemas, tables and
    index definitions are those in force at the fork exactly when, in each of the three tables, every row the
    parent shows when the fork is made was in force at the fork, and the leftovers of the inherited snapshot
    agree with it. -/
theorem catalogFork_iff (cfg : ∀ t : SystemTable, PersistConfig Nat t.Row) (ops : List CatalogOp) (c : Catalog)
    (hmeets : Runs.Meets (catalogStep cfg) (CatalogNoClobber cfg) Catalog.init ops)
    (hrun : Runs.run (catalogStep cfg) Catalog.init ops = some c) (fork : ForkPoint)
    (hfork : ∀ t, (catalogHistory ops t).Commits fork) (step1Now forkMicros : Int)
    (hflush : ∀ t, NoClobber (cfg t) (c t) (.persist (some fork.commitMicros) step1Now))
    (hclock : ∀ t, (c t).ClockAdmits forkMicros) (child : Catalog)
    (hchild : c.createBranch cfg fork step1Now forkMicros = some child) :
    (∀ t, (child t).ReadsFork (catalogHistory ops t) fork) ↔
      ∀ t, ((c t).persistLocked (cfg t) (some fork.commitMicros) step1Now).InForceAtFork (catalogHistory ops t)
        fork forkMicros ∧ (child t).InheritedLeftoversAgree := by
  refine forall_congr' (fun t => ?_)
  have hmeets := catalog_meets_on hmeets hrun t
  have hrun := catalog_run_on hrun t
  have hinv : StoredInv (c t) (catalogHistory ops t) := storedInv_run hmeets hrun
  have hreplay : (c t).SnapshotsReplay (catalogHistory ops t).log :=
    tableReplays_run (hmeets.mono (fun _ _ => TableNoClobber.keepsRows)) hrun
  obtain ⟨hflushed, hpersisted, hclock', hpos⟩ := hinv.flush (hfork t) (hflush t) (hclock t)
  obtain ⟨inherited, hinherited, heq⟩ :=
    Option.map_eq_some_iff.mp (SystemTable.collect_eq_some hchild t)
  rw [← heq]
  exact hflushed.overlayReadsFork_iff hpersisted hclock' hpos hinherited (hreplay.persistLocked _ _)

/-- A DDL commit that creates or alters a table. -/
def putTable (micros : Int) (tableUuid : Nat) (row : SystemTable.tables.Row) (writeSeqNum : Int) : CatalogOp :=
  .commit micros (fun
    | .schemas => ⟨[], by simp⟩
    | .tables  => .single tableUuid (.upsert row) writeSeqNum
    | .indexes => ⟨[], by simp⟩)

/-- A DDL commit that drops a table. -/
def dropTable (micros : Int) (tableUuid : Nat) (writeSeqNum : Int) : CatalogOp :=
  .commit micros (fun
    | .schemas => ⟨[], by simp⟩
    | .tables  => .single tableUuid .delete writeSeqNum
    | .indexes => ⟨[], by simp⟩)

/-- A table with an Arrow schema. -/
def plainTable (tableName : String) (arrowSchema : List UInt8) : SystemTable.tables.Row :=
  { tableName := tableName, schemaUuid := 0, arrowSchema := arrowSchema, partitionKeys := [],
    clusteringKeys := [], primaryKeys := ["id"], description := "", retentionDurationSeconds := none,
    snapshotDensitySeconds := none }

/-- Small rows in every system table. -/
def smallRows : ∀ t : SystemTable, PersistConfig Nat t.Row := fun _ => ⟨fun _ => 1, 100, none⟩

/-- Table 1 is created; after the fork position it is altered and table 2 is created. -/
def alteredAfterFork : List CatalogOp :=
  [putTable 10 1 (plainTable "orders" [1]) 0, putTable 20 1 (plainTable "orders" [1, 2]) 1,
    putTable 30 2 (plainTable "later" [3]) 2]

/-- The child of a fork below both shows the altered schema and the later table. -/
theorem alteredAfterFork_leaks :
    ∃ c child, Runs.run (catalogStep smallRows) Catalog.init alteredAfterFork = some c ∧
      c.createBranch smallRows ⟨0, 10⟩ 40 40 = some child ∧
      (1, plainTable "orders" [1, 2]) ∈ (child .tables).readData (.latestSeq 1) ∧
      (2, plainTable "later" [3]) ∈ (child .tables).readData (.latestSeq 1) ∧
      replayLog ((catalogHistory alteredAfterFork .tables).atFork ⟨0, 10⟩) 1 = some (plainTable "orders" [1]) ∧
      replayLog ((catalogHistory alteredAfterFork .tables).atFork ⟨0, 10⟩) 2 = none := by
  have hend : ((Runs.run (catalogStep smallRows) Catalog.init alteredAfterFork).bind (fun c =>
      (c.createBranch smallRows ⟨0, 10⟩ 40 40).map (fun child =>
        decide ((1, plainTable "orders" [1, 2]) ∈ (child .tables).readData (.latestSeq 1) ∧
          (2, plainTable "later" [3]) ∈ (child .tables).readData (.latestSeq 1))))) = some true := by
    decide +kernel
  obtain ⟨c, hrun, hc⟩ := Option.bind_eq_some_iff.mp hend
  obtain ⟨child, hchild, hread⟩ := Option.map_eq_some_iff.mp hc
  obtain ⟨haltered, hlater⟩ := of_decide_eq_true hread
  exact ⟨c, child, hrun, hchild, haltered, hlater, by decide +kernel, by decide +kernel⟩

/-- Two tables are created, the catalog is persisted, folded and purged, data commits, and one of the tables
    is dropped after the fork position. -/
def droppedAfterFork : List CatalogOp :=
  [putTable 10 1 (plainTable "orders" [1]) 0, putTable 20 2 (plainTable "kept" [2]) 1,
    .maintain .tables (.op (.persist none 25)), .maintain .tables (.op (.snapshot none [])),
    .maintain .tables (.op .purge), .commit 30 (fun _ => ⟨[], by simp⟩), dropTable 40 1 2]

/-- The dropped table is there on the child. -/
theorem droppedAfterFork_reads :
    ∃ c child, Runs.run (catalogStep smallRows) Catalog.init droppedAfterFork = some c ∧
      c.createBranch smallRows ⟨2, 30⟩ 50 50 = some child ∧
      (1, plainTable "orders" [1]) ∈ (child .tables).readData (.latestSeq 3) ∧
      ∀ t, (child t).ReadsFork (catalogHistory droppedAfterFork t) ⟨2, 30⟩ := by
  have hend : ((Runs.run (catalogStep smallRows) Catalog.init droppedAfterFork).bind (fun c =>
      (c.createBranch smallRows ⟨2, 30⟩ 50 50).map (fun child => decide (
        ((1, plainTable "orders" [1]) ∈ (child .tables).readData (.latestSeq 3) ∧
          (∀ t, NoClobber (smallRows t) (c t) (.persist (some 30) 50)) ∧ ∀ t, (c t).ClockAdmits 50) ∧
        ∀ t, ((c t).persistLocked (smallRows t) (some 30) 50).InForceAtFork (catalogHistory droppedAfterFork t)
          ⟨2, 30⟩ 50 ∧ (child t).InheritedLeftoversAgree)))) = some true := by
    decide +kernel
  obtain ⟨c, hrun, hc⟩ := Option.bind_eq_some_iff.mp hend
  obtain ⟨child, hchild, hread⟩ := Option.map_eq_some_iff.mp hc
  obtain ⟨⟨hdropped, hflush, hclock⟩, hforce⟩ := of_decide_eq_true hread
  have hfork : ∀ t, (catalogHistory droppedAfterFork t).Commits ⟨2, 30⟩ := fun
    | .schemas => ⟨_, List.mem_of_getElem? (i := 2) rfl, rfl, rfl⟩
    | .tables  => ⟨_, List.mem_of_getElem? (i := 2) rfl, rfl, rfl⟩
    | .indexes => ⟨_, List.mem_of_getElem? (i := 2) rfl, rfl, rfl⟩
  exact ⟨c, child, hrun, hchild, hdropped, (catalogFork_iff smallRows droppedAfterFork c (by decide +kernel) hrun
    ⟨2, 30⟩ hfork 50 50 hflush hclock child hchild).mpr hforce⟩

end Penca
