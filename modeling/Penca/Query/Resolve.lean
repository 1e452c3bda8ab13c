import Mathlib.Data.List.Dedup
import Penca.Log.Entry

/-!
# `Query.Resolve` — the merge resolution kernel

The read path never replays a log. Each tier resolves its own entries with one two-arm query (the latest
upsert per row, the latest delete per row, an upsert shown unless a newer delete shadows it, a tombstone
shown only when it is strictly newer), the tiers are unioned keeping the greater `commit_micros` per row,
and the snapshot's rows are added for the rows no tier mentioned.

Batches are lists; the order of rows in a batch is not modelled.

## Contents
- **The kernel.** `lexComparePredicate`, `latestPerPartition`, `twoArmResolve` and what it selects
  (`mem_mergeResolved`: exactly the newest entry of each row).
- **Composition.** `unionLatest`, `composeResolved`, `mergeRows` and their pointwise meaning.
-/

namespace Penca

open Newest

variable {R V : Type} [DecidableEq R]

/-! ## The two-arm resolve -/

/-- `lex_compare_predicate`: `(a, b) > (c, d)`, or `≥` when the tie is not strict. -/
def lexComparePredicate (leftA leftB rightA rightB : Int) (strictTie : Bool) : Bool :=
  decide (leftA > rightA) ||
    (decide (leftA = rightA) && if strictTie then decide (leftB > rightB) else decide (leftB ≥ rightB))

/-- The `ORDER BY` key of the resolve: `(commit_seq_num, write_seq_num)`. -/
def LogEntry.orderKey (e : LogEntry R V) : Int ×ₗ Int := toLex (e.commitSeqNum, e.writeSeqNum)

/-- `latest_per_partition`: the latest entry of row `r`. -/
def latestPerPartition (es : List (LogEntry R V)) (r : R) : Option (LogEntry R V) :=
  newest LogEntry.orderKey (es.filter (fun e => e.rowUuid = r))

/-- The distinct rows of a batch. -/
def rowUuids (es : List (LogEntry R V)) : List R := (es.map LogEntry.rowUuid).dedup

/-- `upsert_visible_predicate`: no delete of the row, or the upsert is at least as new. -/
def upsertVisible (l : LogEntry R V) (d : Option (LogEntry R V)) : Bool :=
  d.all (fun d => lexComparePredicate l.commitSeqNum l.writeSeqNum d.commitSeqNum d.writeSeqNum false)

/-- `delete_visible_predicate`: no upsert of the row, or the delete is strictly newer. -/
def deleteVisible (d : LogEntry R V) (l : Option (LogEntry R V)) : Bool :=
  l.all (fun l => lexComparePredicate d.commitSeqNum d.writeSeqNum l.commitSeqNum l.writeSeqNum true)

/-- `two_arm_resolve_select`: the visible upserts, then the winning tombstones. -/
def twoArmResolve (upserts deletes : List (LogEntry R V)) : List (LogEntry R V) :=
  (rowUuids upserts).filterMap (fun r =>
    (latestPerPartition upserts r).filter (fun l => upsertVisible l (latestPerPartition deletes r))) ++
  (rowUuids deletes).filterMap (fun r =>
    (latestPerPartition deletes r).filter (fun d => deleteVisible d (latestPerPartition upserts r)))

/-- The entries of one log. -/
def ofKind (k : LogKind) (es : List (LogEntry R V)) : List (LogEntry R V) :=
  es.filter (fun e => e.kind = k)

/-- `build_merge_resolved` / `build_cold_merge_resolved` over the visible entries of a tier. -/
def mergeResolved (es : List (LogEntry R V)) : List (LogEntry R V) :=
  twoArmResolve (ofKind .upsertLog es) (ofKind .deleteLog es)

/-! ### The order key against the version order -/

omit [DecidableEq R] in
theorem LogEntry.version_le_iff {e e' : LogEntry R V} :
    e.version ≤ e'.version ↔ e.orderKey < e'.orderKey ∨
      (e.orderKey = e'.orderKey ∧ (e.kind = .upsertLog → e'.kind = .upsertLog)) := by
  simp only [LogEntry.version, LogEntry.orderKey, Prod.Lex.toLex_le_toLex, Prod.Lex.toLex_lt_toLex,
    EmbeddingLike.apply_eq_iff_eq, Prod.mk.injEq, Bool.le_iff_imp, decide_eq_true_eq]
  tauto

omit [DecidableEq R] in
/-- Inside one log the `ORDER BY` key is the version order. -/
theorem LogEntry.version_le_iff_of_kind {e e' : LogEntry R V} (h : e.kind = e'.kind) :
    e.version ≤ e'.version ↔ e.orderKey ≤ e'.orderKey := by
  rw [version_le_iff, h, le_iff_lt_or_eq]
  simp

omit [DecidableEq R] in
/-- The visibility test of an upsert against a delete is the version order: the upsert wins a tie. -/
theorem lexComparePredicate_upsert {l d : LogEntry R V} (hl : l.kind = .upsertLog)
    (hd : d.kind = .deleteLog) :
    lexComparePredicate l.commitSeqNum l.writeSeqNum d.commitSeqNum d.writeSeqNum false = true ↔
      d.version ≤ l.version := by
  simp only [lexComparePredicate, LogEntry.version, Prod.Lex.toLex_le_toLex, hl, hd,
    Bool.or_eq_true, Bool.and_eq_true, decide_eq_true_eq, Bool.false_eq_true, if_false]
  simp only [reduceCtorEq, decide_false, decide_true, Bool.false_le, and_true]
  omega

omit [DecidableEq R] in
/-- The visibility test of a delete against an upsert is strict. -/
theorem lexComparePredicate_delete {d l : LogEntry R V} (hd : d.kind = .deleteLog)
    (hl : l.kind = .upsertLog) :
    lexComparePredicate d.commitSeqNum d.writeSeqNum l.commitSeqNum l.writeSeqNum true = true ↔
      l.version ≤ d.version := by
  simp only [lexComparePredicate, LogEntry.version_le_iff, LogEntry.orderKey,
    Prod.Lex.toLex_lt_toLex, hl, hd, Bool.or_eq_true, Bool.and_eq_true, decide_eq_true_eq, if_true]
  simp only [reduceCtorEq, imp_false, not_true_eq_false, and_false, or_false]
  omega

/-! ### What the resolve selects -/

@[simp] theorem mem_rowUuids {es : List (LogEntry R V)} {r : R} :
    r ∈ rowUuids es ↔ ∃ e ∈ es, e.rowUuid = r := by
  simp [rowUuids]

omit [DecidableEq R] in
@[simp] theorem mem_ofKind {k : LogKind} {es : List (LogEntry R V)} {e : LogEntry R V} :
    e ∈ ofKind k es ↔ e ∈ es ∧ e.kind = k := by
  simp [ofKind]

/-- The newest entry of its row among `es`. -/
def NewestOf (es : List (LogEntry R V)) (e : LogEntry R V) : Prop :=
  IsNewest LogEntry.version {b | b ∈ es ∧ b.rowUuid = e.rowUuid} e

omit [DecidableEq R] in
theorem NewestOf.mem {es : List (LogEntry R V)} {e : LogEntry R V} (h : NewestOf es e) : e ∈ es := h.1.1

omit [DecidableEq R] in
/-- Two newest entries of one row are one entry. -/
theorem NewestOf.eq {es : List (LogEntry R V)}
    (hsep : Separated LogEntry.version LogEntry.rowUuid {e | e ∈ es}) {e e' : LogEntry R V}
    (h : NewestOf es e) (h' : NewestOf es e') (hrow : e.rowUuid = e'.rowUuid) : e = e' :=
  hsep e h.mem e' h'.mem hrow
    (le_antisymm (h'.2 e ⟨h.mem, hrow⟩) (h.2 e' ⟨h'.mem, hrow.symm⟩))

theorem exists_newestOf {es : List (LogEntry R V)} {r : R} (h : ∃ e ∈ es, e.rowUuid = r) :
    ∃ e, e.rowUuid = r ∧ NewestOf es e := by
  have hex : ∃ a : LogEntry R V, a.rowUuid = r ∧
      IsNewest LogEntry.version {e | e ∈ es ∧ e.rowUuid = r} a := exists_isNewest h
  obtain ⟨a, rfl, hnew⟩ := hex
  exact ⟨a, rfl, hnew⟩

theorem newestEffect_eq_effect {es : List (LogEntry R V)}
    (hsep : Separated LogEntry.version LogEntry.rowUuid {e | e ∈ es}) {e : LogEntry R V}
    (h : NewestOf es e) : newestEffect es e.rowUuid = e.effect :=
  outcome_eq_effect hsep h

section OneLog

variable {k : LogKind} {es : List (LogEntry R V)}
  (hsep : Separated LogEntry.version LogEntry.rowUuid {e | e ∈ es}) (hkind : ∀ e ∈ es, e.kind = k)
include hsep hkind

/-- Inside one log, `latest_per_partition` is the newest entry of the row. -/
theorem latestPerPartition_eq_some_iff {r : R} {l : LogEntry R V} :
    latestPerPartition es r = some l ↔ l.rowUuid = r ∧ NewestOf es l := by
  -- All entries are of one kind, so the tie rule plays no part.
  have hle : ∀ a ∈ es, ∀ b ∈ es, (a.orderKey ≤ b.orderKey ↔ a.version ≤ b.version) :=
    fun a ha b hb => (LogEntry.version_le_iff_of_kind ((hkind a ha).trans (hkind b hb).symm)).symm
  have hinj : Set.InjOn LogEntry.orderKey {b | b ∈ es.filter (fun e => e.rowUuid = r)} := by
    intro a ha b hb hab
    simp only [Set.mem_ofPred_eq, List.mem_filter, decide_eq_true_eq] at ha hb
    exact hsep a ha.1 b hb.1 (ha.2.trans hb.2.symm)
      (le_antisymm ((hle a ha.1 b hb.1).mp hab.le) ((hle b hb.1 a ha.1).mp hab.ge))
  rw [latestPerPartition, newest_eq_some_iff hinj]
  constructor
  · rintro ⟨hl, hmax⟩
    simp only [Set.mem_ofPred_eq, List.mem_filter, decide_eq_true_eq] at hl hmax
    refine ⟨hl.2, ⟨hl.1, rfl⟩, ?_⟩
    rintro b ⟨hb, hrow⟩
    exact (hle b hb l hl.1).mp (hmax b ⟨hb, hrow.trans hl.2⟩)
  · rintro ⟨rfl, ⟨hl, -⟩, hmax⟩
    refine ⟨by simpa using hl, ?_⟩
    intro b hb
    simp only [Set.mem_ofPred_eq, List.mem_filter, decide_eq_true_eq] at hb
    exact (hle b hb.1 l hl).mpr (hmax b hb)

omit hsep hkind in
theorem latestPerPartition_eq_none_iff {r : R} :
    latestPerPartition es r = none ↔ ∀ e ∈ es, e.rowUuid ≠ r := by
  rw [latestPerPartition, newest_eq_none, List.filter_eq_nil_iff]
  simp

/-- An option that is empty or holds a newest entry is bounded by `e` iff the whole row is. -/
theorem latestPerPartition_all_le_iff {r : R} {p : LogEntry R V → Bool} {e : LogEntry R V}
    (hp : ∀ d ∈ es, p d = true ↔ d.version ≤ e.version) :
    (latestPerPartition es r).all p = true ↔ ∀ d ∈ es, d.rowUuid = r → d.version ≤ e.version := by
  cases hd : latestPerPartition es r with
  | none =>
      have hnone := latestPerPartition_eq_none_iff.mp hd
      simp only [Option.all_none, true_iff]
      exact fun d hd hr => absurd hr (hnone d hd)
  | some d =>
      obtain ⟨rfl, hnew⟩ := (latestPerPartition_eq_some_iff hsep hkind).mp hd
      rw [Option.all_some, hp d hnew.mem]
      exact ⟨fun h b hb hr => (hnew.2 b ⟨hb, hr⟩).trans h, fun h => h d hnew.mem rfl⟩

end OneLog

/-- One arm: the latest entry of its own log that the other log's latest does not beat. -/
theorem mem_arm_iff {k k' : LogKind} {own other : List (LogEntry R V)}
    (hown : Separated LogEntry.version LogEntry.rowUuid {e | e ∈ own}) (hk : ∀ e ∈ own, e.kind = k)
    (hother : Separated LogEntry.version LogEntry.rowUuid {e | e ∈ other})
    (hk' : ∀ e ∈ other, e.kind = k') (visible : LogEntry R V → LogEntry R V → Bool)
    (hvis : ∀ l ∈ own, ∀ d ∈ other, visible l d = true ↔ d.version ≤ l.version) {e : LogEntry R V} :
    e ∈ (rowUuids own).filterMap (fun r => (latestPerPartition own r).filter
        (fun l => (latestPerPartition other r).all (visible l))) ↔
      NewestOf own e ∧ ∀ d ∈ other, d.rowUuid = e.rowUuid → d.version ≤ e.version := by
  simp only [List.mem_filterMap, Option.filter_eq_some_iff, mem_rowUuids,
    latestPerPartition_eq_some_iff hown hk]
  constructor
  · rintro ⟨r, -, ⟨rfl, hnew⟩, hall⟩
    exact ⟨hnew, (latestPerPartition_all_le_iff hother hk' (hvis e hnew.mem)).mp hall⟩
  · rintro ⟨hnew, hle⟩
    exact ⟨e.rowUuid, ⟨e, hnew.mem, rfl⟩, ⟨rfl, hnew⟩,
      (latestPerPartition_all_le_iff hother hk' (hvis e hnew.mem)).mpr hle⟩

omit [DecidableEq R] in
/-- A filter-map that keeps its index as the row lists each row once. -/
theorem nodup_map_rowUuid_filterMap {rs : List R} {f : R → Option (LogEntry R V)} (hrs : rs.Nodup)
    (hf : ∀ r e, f r = some e → e.rowUuid = r) :
    ((rs.filterMap f).map LogEntry.rowUuid).Nodup := by
  have hsub : ((rs.filterMap f).map LogEntry.rowUuid).Sublist rs := by
    rw [List.map_filterMap]
    induction rs with
    | nil => exact List.Sublist.slnil
    | cons r rs ih =>
        have ih := ih (List.nodup_cons.mp hrs).2
        cases hr : f r with
        | none => simpa [hr] using ih.cons r
        | some e => simpa [hr, hf r e hr] using ih.cons_cons r
  exact hsub.nodup hrs

section Resolve

variable {es : List (LogEntry R V)}
  (hsep : Separated LogEntry.version LogEntry.rowUuid {e | e ∈ es})
include hsep

/-- **The two-arm resolve selects exactly the newest entry of each row.** -/
theorem mem_mergeResolved {e : LogEntry R V} : e ∈ mergeResolved es ↔ NewestOf es e := by
  have hsepK : ∀ k, Separated LogEntry.version LogEntry.rowUuid {e | e ∈ ofKind k es} :=
    fun k => hsep.mono (fun e he => (mem_ofKind.mp he).1)
  have hkindK : ∀ k, ∀ e ∈ ofKind k es, e.kind = k := fun k e he => (mem_ofKind.mp he).2
  have hups := mem_arm_iff (hsepK .upsertLog) (hkindK .upsertLog) (hsepK .deleteLog)
    (hkindK .deleteLog) (e := e)
    (fun l d => lexComparePredicate l.commitSeqNum l.writeSeqNum d.commitSeqNum d.writeSeqNum false)
    (fun l hl d hd => lexComparePredicate_upsert (hkindK _ l hl) (hkindK _ d hd))
  have hdel := mem_arm_iff (hsepK .deleteLog) (hkindK .deleteLog) (hsepK .upsertLog)
    (hkindK .upsertLog) (e := e)
    (fun d l => lexComparePredicate d.commitSeqNum d.writeSeqNum l.commitSeqNum l.writeSeqNum true)
    (fun d hd l hl => lexComparePredicate_delete (hkindK _ d hd) (hkindK _ l hl))
  unfold mergeResolved twoArmResolve upsertVisible deleteVisible
  rw [List.mem_append, hups, hdel]
  -- The newest entry of a row is the newest of its own log and beats the other log.
  constructor
  · rintro (⟨hnew, hle⟩ | ⟨hnew, hle⟩)
    all_goals
      refine ⟨⟨(mem_ofKind.mp hnew.mem).1, rfl⟩, ?_⟩
      rintro b ⟨hb, hrow⟩
      cases hk : b.kind
    · exact hnew.2 b ⟨mem_ofKind.mpr ⟨hb, hk⟩, hrow⟩
    · exact hle b (mem_ofKind.mpr ⟨hb, hk⟩) hrow
    · exact hle b (mem_ofKind.mpr ⟨hb, hk⟩) hrow
    · exact hnew.2 b ⟨mem_ofKind.mpr ⟨hb, hk⟩, hrow⟩
  · intro h
    have hpart : ∀ k, ∀ b ∈ ofKind k es, b.rowUuid = e.rowUuid → b.version ≤ e.version :=
      fun k b hb hrow => h.2 b ⟨(mem_ofKind.mp hb).1, hrow⟩
    cases hk : e.kind
    · exact Or.inl ⟨⟨⟨mem_ofKind.mpr ⟨h.mem, hk⟩, rfl⟩, fun b hb => hpart _ b hb.1 hb.2⟩, hpart _⟩
    · exact Or.inr ⟨⟨⟨mem_ofKind.mpr ⟨h.mem, hk⟩, rfl⟩, fun b hb => hpart _ b hb.1 hb.2⟩, hpart _⟩

omit hsep in
/-- The resolve lists a row at most once per log: an arm has one entry per row, and the arms are of different
    kinds. -/
theorem nodup_rowUuid_kind_mergeResolved (es : List (LogEntry R V)) :
    ((mergeResolved es).map (fun e => (e.rowUuid, e.kind))).Nodup := by
  have harm : ∀ (own : List (LogEntry R V)) (p : R → LogEntry R V → Bool),
      (((rowUuids own).filterMap (fun r => (latestPerPartition own r).filter (p r))).map
        (fun e => (e.rowUuid, e.kind))).Nodup ∧
        ∀ e ∈ (rowUuids own).filterMap (fun r => (latestPerPartition own r).filter (p r)), e ∈ own := by
    intro own p
    have hlatest : ∀ r e, (latestPerPartition own r).filter (p r) = some e → e ∈ own ∧ e.rowUuid = r := by
      intro r e he
      have hmem := mem_of_newest (Option.filter_eq_some_iff.mp he).1
      simpa using List.mem_filter.mp hmem
    constructor
    · apply List.Nodup.of_map Prod.fst
      rw [List.map_map]
      exact nodup_map_rowUuid_filterMap (List.nodup_dedup _) (fun r e he => (hlatest r e he).2)
    · intro e he
      obtain ⟨r, -, hr⟩ := List.mem_filterMap.mp he
      exact (hlatest r e hr).1
  obtain ⟨hups, hupsIn⟩ := harm (ofKind .upsertLog es)
    (fun r l => upsertVisible l (latestPerPartition (ofKind .deleteLog es) r))
  obtain ⟨hdel, hdelIn⟩ := harm (ofKind .deleteLog es)
    (fun r d => deleteVisible d (latestPerPartition (ofKind .upsertLog es) r))
  rw [mergeResolved, twoArmResolve, List.map_append]
  refine List.nodup_append.mpr ⟨hups, hdel, ?_⟩
  intro k hk k' hk' heq
  obtain ⟨e, he, rfl⟩ := List.mem_map.mp hk
  obtain ⟨e', he', rfl⟩ := List.mem_map.mp hk'
  have hkind := (mem_ofKind.mp (hupsIn e he)).2.symm.trans
    ((congrArg Prod.snd heq).trans (mem_ofKind.mp (hdelIn e' he')).2)
  cases hkind

omit hsep in
theorem nodup_mergeResolved (es : List (LogEntry R V)) : (mergeResolved es).Nodup :=
  (nodup_rowUuid_kind_mergeResolved es).of_map

theorem nodup_rowUuid_mergeResolved : ((mergeResolved es).map LogEntry.rowUuid).Nodup := by
  refine (nodup_mergeResolved es).map_on (fun e he e' he' hrow => ?_)
  exact ((mem_mergeResolved hsep).mp he).eq hsep ((mem_mergeResolved hsep).mp he') hrow

end Resolve

/-! ## Composition of the tiers -/

/-- `dedup_by_row_uuid`: per row, the entry with the greatest `commit_micros`, the first on a tie. -/
def dedupByRowUuid (es : List (LogEntry R V)) : List (LogEntry R V) :=
  (rowUuids es).filterMap (fun r => newest LogEntry.commitMicros (es.filter (fun e => e.rowUuid = r)))

/-- `union_latest` of the resolved hot and cold batches. -/
def unionLatest (hot cold : List (LogEntry R V)) : List (LogEntry R V) := dedupByRowUuid (hot ++ cold)

/-- `filter_live_rows`, projected to the output columns. -/
def filterLiveRows (es : List (LogEntry R V)) : List (R × V) :=
  es.filterMap (fun e => e.effect.map (fun v => (e.rowUuid, v)))

/-- `compose_resolved_and_exclusion`: the live delta and the exclusion set. -/
def composeResolvedAndExclusion (hot cold : List (LogEntry R V)) : List (R × V) × List R :=
  let composed := unionLatest hot cold
  (filterLiveRows composed, composed.map LogEntry.rowUuid)

/-- The rows of a merge read: the live delta, then the snapshot rows outside the exclusion set. -/
def mergeRows (hot cold : List (LogEntry R V)) (snapshotRows : List (R × V)) : List (R × V) :=
  let (resolved, exclusion) := composeResolvedAndExclusion hot cold
  resolved ++ snapshotRows.filter (fun p => p.1 ∉ exclusion)

/-- A batch with one entry per row has nothing to deduplicate. -/
theorem dedupByRowUuid_eq_self {es : List (LogEntry R V)} (h : (es.map LogEntry.rowUuid).Nodup) :
    dedupByRowUuid es = es := by
  have hone : ∀ e ∈ es, newest LogEntry.commitMicros (es.filter (fun a => a.rowUuid = e.rowUuid)) = some e := by
    intro e he
    apply newest_eq_some_of_forall_eq (List.mem_filter.mpr ⟨he, decide_eq_true rfl⟩)
    intro a ha
    obtain ⟨hmem, hrow⟩ := List.mem_filter.mp ha
    exact List.inj_on_of_nodup_map h hmem he (of_decide_eq_true hrow)
  rw [dedupByRowUuid, rowUuids, h.dedup, List.filterMap_map]
  calc es.filterMap (fun e => newest LogEntry.commitMicros (es.filter (fun a => a.rowUuid = e.rowUuid)))
      = es.filterMap some := List.filterMap_congr hone
    _ = es := List.filterMap_some

/-! ### What the composition returns -/

section Compose

variable {hot cold : List (LogEntry R V)}
  (hsep : Separated LogEntry.version LogEntry.rowUuid {e | e ∈ hot ++ cold})

theorem nodup_map_rowUuid_unionLatest (hot cold : List (LogEntry R V)) :
    ((unionLatest hot cold).map LogEntry.rowUuid).Nodup := by
  refine nodup_map_rowUuid_filterMap (List.nodup_dedup _) (fun r e he => ?_)
  have hmem := mem_of_newest he
  simpa using (List.mem_filter.mp hmem).2

include hsep

omit hsep in
/-- Of the resolved batch of one tier, the filter on a row keeps the newest entry of that row. -/
theorem newest_filter_mergeResolved {es : List (LogEntry R V)}
    (hsep : Separated LogEntry.version LogEntry.rowUuid {e | e ∈ es}) {e : LogEntry R V}
    (h : NewestOf es e) :
    newest LogEntry.commitMicros ((mergeResolved es).filter (fun b => b.rowUuid = e.rowUuid)) = some e := by
  refine newest_eq_some_of_forall_eq (List.mem_filter.mpr ⟨(mem_mergeResolved hsep).mpr h, ?_⟩) ?_
  · simp
  · intro b hb
    obtain ⟨hb, hrow⟩ := List.mem_filter.mp hb
    exact ((mem_mergeResolved hsep).mp hb).eq hsep h (by simpa using hrow)

/-- **The composed batch is the newest entry of each row over both tiers**, when everything hot is newer
    than everything cold. -/
theorem mem_unionLatest
    (htier : ∀ h ∈ hot, ∀ c ∈ cold, c.version < h.version ∧ c.commitMicros ≤ h.commitMicros)
    {e : LogEntry R V} :
    e ∈ unionLatest (mergeResolved hot) (mergeResolved cold) ↔ NewestOf (hot ++ cold) e := by
  have hsepH : Separated LogEntry.version LogEntry.rowUuid {e | e ∈ hot} :=
    hsep.mono (fun e he => List.mem_append_left _ he)
  have hsepC : Separated LogEntry.version LogEntry.rowUuid {e | e ∈ cold} :=
    hsep.mono (fun e he => List.mem_append_right _ he)
  -- The winner of a row: the hot entry if there is one, else the cold entry.
  have hwin : ∀ b, NewestOf (hot ++ cold) b →
      newest LogEntry.commitMicros
        ((mergeResolved hot ++ mergeResolved cold).filter (fun c => c.rowUuid = b.rowUuid)) = some b := by
    intro b hb
    rw [List.filter_append]
    rcases List.mem_append.mp hb.mem with hbh | hbc
    · have hnew : NewestOf hot b :=
        hb.subset (fun c hc => ⟨List.mem_append_left _ hc.1, hc.2⟩) ⟨hbh, rfl⟩
      refine newest_append_of_forall_le (newest_filter_mergeResolved hsepH hnew) (fun c hc => ?_)
      obtain ⟨hc, -⟩ := List.mem_filter.mp hc
      exact (htier b hbh c ((mem_mergeResolved hsepC).mp hc).mem).2
    · have hnew : NewestOf cold b :=
        hb.subset (fun c hc => ⟨List.mem_append_right _ hc.1, hc.2⟩) ⟨hbc, rfl⟩
      have hnil : (mergeResolved hot).filter (fun c => c.rowUuid = b.rowUuid) = [] := by
        rw [List.filter_eq_nil_iff]
        intro c hc hrow
        have hch := ((mem_mergeResolved hsepH).mp hc).mem
        have hle := hb.2 c ⟨List.mem_append_left _ hch, by simpa using hrow⟩
        exact absurd (htier c hch b hbc).1 (not_lt_of_ge hle)
      rw [hnil, List.nil_append]
      exact newest_filter_mergeResolved hsepC hnew
  have hmem : ∀ b ∈ mergeResolved hot ++ mergeResolved cold, b ∈ hot ++ cold := by
    intro b hb
    rcases List.mem_append.mp hb with hb | hb
    · exact List.mem_append_left _ ((mem_mergeResolved hsepH).mp hb).mem
    · exact List.mem_append_right _ ((mem_mergeResolved hsepC).mp hb).mem
  unfold unionLatest dedupByRowUuid
  rw [List.mem_filterMap]
  constructor
  · rintro ⟨r, hr, harg⟩
    obtain ⟨b, hb, rfl⟩ := mem_rowUuids.mp hr
    obtain ⟨w, hrow, hw⟩ := exists_newestOf ⟨b, hmem b hb, rfl⟩
    rw [← hrow, hwin w hw] at harg
    exact Option.some.inj harg ▸ hw
  · intro he
    have harg := hwin e he
    have hfil := List.mem_filter.mp (mem_of_newest harg)
    exact ⟨e.rowUuid, mem_rowUuids.mpr ⟨e, hfil.1, rfl⟩, harg⟩

variable (htier : ∀ h ∈ hot, ∀ c ∈ cold, c.version < h.version ∧ c.commitMicros ≤ h.commitMicros)
include htier

/-- The exclusion set is the set of rows some tier mentions. -/
theorem mem_exclusion {r : R} :
    r ∈ (composeResolvedAndExclusion (mergeResolved hot) (mergeResolved cold)).2 ↔
      ∃ e ∈ hot ++ cold, e.rowUuid = r := by
  unfold composeResolvedAndExclusion
  rw [List.mem_map]
  constructor
  · rintro ⟨e, he, rfl⟩
    exact ⟨e, ((mem_unionLatest hsep htier).mp he).mem, rfl⟩
  · intro h
    obtain ⟨e, rfl, he⟩ := exists_newestOf h
    exact ⟨e, (mem_unionLatest hsep htier).mpr he, rfl⟩

omit hsep htier in
/-- The live rows of a batch that holds the newest entry of each row. -/
theorem mem_filterLiveRows_of_newest {es composed : List (LogEntry R V)}
    (hsep : Separated LogEntry.version LogEntry.rowUuid {e | e ∈ es})
    (hcomposed : ∀ e, e ∈ composed ↔ NewestOf es e) {r : R} {v : V} :
    (r, v) ∈ filterLiveRows composed ↔ (∃ e ∈ es, e.rowUuid = r) ∧ newestEffect es r = some v := by
  simp only [filterLiveRows, List.mem_filterMap, hcomposed, Option.map_eq_some_iff, Prod.mk.injEq]
  constructor
  · rintro ⟨e, he, w, hw, rfl, rfl⟩
    exact ⟨⟨e, he.mem, rfl⟩, (newestEffect_eq_effect hsep he).trans hw⟩
  · rintro ⟨h, hv⟩
    obtain ⟨e, rfl, he⟩ := exists_newestOf h
    exact ⟨e, he, v, (newestEffect_eq_effect hsep he).symm.trans hv, rfl, rfl⟩

/-- **Rows of a merge read.** A row some tier mentions is returned as its newest entry says; any other row
    comes from the snapshot. -/
theorem mem_mergeRows {snapshotRows : List (R × V)} {r : R} {v : V} :
    (r, v) ∈ mergeRows (mergeResolved hot) (mergeResolved cold) snapshotRows ↔
      ((∃ e ∈ hot ++ cold, e.rowUuid = r) ∧ newestEffect (hot ++ cold) r = some v) ∨
      ((∀ e ∈ hot ++ cold, e.rowUuid ≠ r) ∧ (r, v) ∈ snapshotRows) := by
  have hlive : (r, v) ∈ (composeResolvedAndExclusion (mergeResolved hot) (mergeResolved cold)).1 ↔
      (∃ e ∈ hot ++ cold, e.rowUuid = r) ∧ newestEffect (hot ++ cold) r = some v :=
    mem_filterLiveRows_of_newest hsep (fun _ => mem_unionLatest hsep htier)
  have hexcl := mem_exclusion hsep htier (r := r)
  rw [mergeRows, List.mem_append, hlive, List.mem_filter, decide_eq_true_eq, hexcl]
  refine or_congr Iff.rfl ⟨fun h => ⟨fun e he hr => h.2 ⟨e, he, hr⟩, h.1⟩, fun h => ⟨h.2, ?_⟩⟩
  rintro ⟨e, he, hr⟩
  exact h.1 e he hr

omit hsep htier [DecidableEq R] in
/-- The live rows are those of some of the entries, in their order. -/
theorem map_fst_filterLiveRows_sublist (es : List (LogEntry R V)) :
    ((filterLiveRows es).map Prod.fst).Sublist (es.map LogEntry.rowUuid) := by
  induction es with
  | nil => exact List.Sublist.slnil
  | cons e es ih =>
      unfold filterLiveRows at ih ⊢
      cases he : e.effect with
      | none => simpa [he] using ih.cons e.rowUuid
      | some v => simpa [he] using ih.cons_cons e.rowUuid

omit hsep htier in
/-- No row appears twice in the result if none does in the snapshot. -/
theorem nodup_map_fst_mergeRows {snapshotRows : List (R × V)}
    (hsnap : (snapshotRows.map Prod.fst).Nodup) :
    ((mergeRows hot cold snapshotRows).map Prod.fst).Nodup := by
  have hlive := map_fst_filterLiveRows_sublist (unionLatest hot cold)
  unfold mergeRows composeResolvedAndExclusion
  rw [List.map_append, List.nodup_append]
  refine ⟨hlive.nodup (nodup_map_rowUuid_unionLatest hot cold),
    ((List.filter_sublist).map Prod.fst).nodup hsnap, ?_⟩
  intro r hr r' hr' hrr
  obtain ⟨p, hp, rfl⟩ := List.mem_map.mp hr'
  exact absurd (hrr ▸ hlive.subset hr) (by simpa using (List.mem_filter.mp hp).2)

omit hsep htier in
/-- A row the tiers mention at most in `base` is decided by `base` alone. -/
theorem newestEffect_filter_base {visible tiers : List (LogEntry R V)} {base : LogEntry R V → Bool}
    (hsep : Separated LogEntry.version LogEntry.rowUuid {e | e ∈ visible})
    (habove : ∀ e ∈ visible, base e = false → e ∈ tiers) {r : R}
    (hall : ∀ e ∈ tiers, e.rowUuid = r → base e = true) :
    newestEffect (visible.filter base) r = newestEffect visible r := by
  refine outcome_congr hsep (fun e hr => ⟨fun he => (List.mem_filter.mp he).1, fun he => ?_⟩)
  refine List.mem_filter.mpr ⟨he, ?_⟩
  by_contra hb
  exact hb (hall e (habove e he (by simpa using hb)) hr)

omit hsep htier in
/-- **Tiers against a replay.** `visible` is what a read must replay and `base` the part its snapshot was
    built from, older than the rest. If the tiers hold nothing invisible and everything visible outside
    `base`, and the leftovers of `base` they also hold do not mislead, the merge returns the replay. -/
theorem mem_mergeRows_iff_newestEffect {visible : List (LogEntry R V)} (base : LogEntry R V → Bool)
    (hsep : Separated LogEntry.version LogEntry.rowUuid {e | e ∈ visible})
    (hsub : ∀ e ∈ hot ++ cold, e ∈ visible)
    (htier : ∀ h ∈ hot, ∀ c ∈ cold, c.version < h.version ∧ c.commitMicros ≤ h.commitMicros)
    (hbase : ∀ e ∈ visible, ∀ e' ∈ visible, base e = true → base e' = false → e.version ≤ e'.version)
    (habove : ∀ e ∈ visible, base e = false → e ∈ hot ++ cold)
    {snapshotRows : List (R × V)}
    (hrows : ∀ r v, (r, v) ∈ snapshotRows ↔ newestEffect (visible.filter base) r = some v)
    (hleft : ∀ r, (∃ e ∈ hot ++ cold, e.rowUuid = r) →
      (∀ e ∈ hot ++ cold, e.rowUuid = r → base e = true) →
        newestEffect (hot ++ cold) r = newestEffect (visible.filter base) r) {r : R} {v : V} :
    (r, v) ∈ mergeRows (mergeResolved hot) (mergeResolved cold) snapshotRows ↔
      newestEffect visible r = some v := by
  have hsepT : Separated LogEntry.version LogEntry.rowUuid {e | e ∈ hot ++ cold} := hsep.mono hsub
  rw [mem_mergeRows hsepT htier]
  by_cases hmention : ∃ e ∈ hot ++ cold, e.rowUuid = r
  · have hnot : ¬ ∀ e ∈ hot ++ cold, e.rowUuid ≠ r := by
      push Not
      exact hmention
    suffices hnew : newestEffect (hot ++ cold) r = newestEffect visible r by
      rw [hnew]
      exact ⟨fun h => h.elim And.right (fun h => absurd h.1 hnot), fun h => Or.inl ⟨hmention, h⟩⟩
    by_cases hall : ∀ e ∈ hot ++ cold, e.rowUuid = r → base e = true
    · rw [hleft r hmention hall, newestEffect_filter_base hsep habove hall]
    · -- Some tier has an entry above `base`: the newest visible entry of the row is above it too.
      push Not at hall
      obtain ⟨a, ha, rfl, hab⟩ := hall
      obtain ⟨b, hrow, hnew⟩ := exists_newestOf ⟨a, hsub a ha, rfl⟩
      have hb : b ∈ hot ++ cold := by
        by_cases hbb : base b = true
        · have hle := hbase b hnew.mem a (hsub a ha) hbb (by simpa using hab)
          have hge := hnew.2 a ⟨hsub a ha, hrow.symm⟩
          exact hsep b hnew.mem a (hsub a ha) hrow (le_antisymm hle hge) ▸ ha
        · exact habove b hnew.mem (by simpa using hbb)
      rw [← hrow]
      exact outcome_eq_of_subset hsep hsub hb hnew
  · have hnone : ∀ e ∈ hot ++ cold, e.rowUuid ≠ r := by
      push Not at hmention
      exact hmention
    rw [hrows, newestEffect_filter_base hsep habove (fun e he hr => absurd hr (hnone e he))]
    exact ⟨fun h => h.elim (fun h => absurd h.1 hmention) And.right, fun h => Or.inr ⟨hnone, h⟩⟩

omit hsep htier in
/-- The merge returns the replay exactly when the leftovers do not mislead. -/
theorem forall_mem_mergeRows_iff {visible : List (LogEntry R V)} (base : LogEntry R V → Bool)
    (hsep : Separated LogEntry.version LogEntry.rowUuid {e | e ∈ visible})
    (hsub : ∀ e ∈ hot ++ cold, e ∈ visible)
    (htier : ∀ h ∈ hot, ∀ c ∈ cold, c.version < h.version ∧ c.commitMicros ≤ h.commitMicros)
    (hbase : ∀ e ∈ visible, ∀ e' ∈ visible, base e = true → base e' = false → e.version ≤ e'.version)
    (habove : ∀ e ∈ visible, base e = false → e ∈ hot ++ cold)
    {snapshotRows : List (R × V)}
    (hrows : ∀ r v, (r, v) ∈ snapshotRows ↔ newestEffect (visible.filter base) r = some v) :
    (∀ r v, (r, v) ∈ mergeRows (mergeResolved hot) (mergeResolved cold) snapshotRows ↔
        newestEffect visible r = some v) ↔
      ∀ r, (∃ e ∈ hot ++ cold, e.rowUuid = r) →
        (∀ e ∈ hot ++ cold, e.rowUuid = r → base e = true) →
          newestEffect (hot ++ cold) r = newestEffect (visible.filter base) r := by
  constructor
  · intro h r hmention hall
    rw [newestEffect_filter_base hsep habove hall]
    apply Option.ext
    intro v
    have hread := h r v
    rw [mem_mergeRows (hsep.mono hsub) htier] at hread
    refine Iff.trans ⟨fun heq => Or.inl ⟨hmention, heq⟩, ?_⟩ hread
    rintro (⟨-, heq⟩ | ⟨hnone, -⟩)
    · exact heq
    · obtain ⟨e, he, hr⟩ := hmention
      exact absurd hr (hnone e he)
  · intro hleft r v
    exact mem_mergeRows_iff_newestEffect base hsep hsub htier hbase habove hrows hleft

end Compose

end Penca
