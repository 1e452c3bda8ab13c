import Mathlib.Data.List.Sort
import Mathlib.Order.Basic

/-!
# `Lib.Relational` — tables as lists, SQL conditions and windows

The part of SQL that merge queries are written in, with tables as lists and the order of rows irrelevant.

## Contents
- **Conditions.** `Truth`: `some true`, `some false` and unknown; `or`, `and` and comparisons of nullable values.
- **Windows.** The first row of each partition in descending key order, as `SELECT DISTINCT ON` (`distinctOn`) and as
  `ROW_NUMBER() … = 1` (`rowNumberOne`), which are one function (`rowNumberOne_eq`).
- **Joins.** `innerJoin` and `leftJoin` on any condition; the partner of a row among the first rows of a table.
- **Names.** A reference stands for a column if exactly one column of the scope has its name (`NamesResolve`).
-/

namespace Relational

variable {α β κ ρ : Type*}

/-! ## Conditions -/

/-- The value of a condition; `none` is unknown. -/
abbrev Truth := Option Bool

namespace Truth

/-- `OR`: true if one side is, unknown if nothing decides it. -/
def or : Truth → Truth → Truth
  | some true,  _          => some true
  | _,          some true  => some true
  | some false, some false => some false
  | _,          _          => none

/-- `AND`: false if one side is, unknown if nothing decides it. -/
def and : Truth → Truth → Truth
  | some false, _          => some false
  | _,          some false => some false
  | some true,  some true  => some true
  | _,          _          => none

/-- A comparison of nullable values: unknown if one is NULL. -/
def compare (p : α → β → Bool) (a : Option α) (b : Option β) : Truth := a.bind (fun a => b.map (p a))

/-- `IS NULL`, which is never unknown. -/
def isNull (a : Option α) : Truth := some a.isNone

theorem or_eq_true_iff {p q : Truth} : p.or q = some true ↔ p = some true ∨ q = some true := by
  rcases p with _ | _ | _ <;> rcases q with _ | _ | _ <;> simp [or]

theorem and_eq_true_iff {p q : Truth} : p.and q = some true ↔ p = some true ∧ q = some true := by
  rcases p with _ | _ | _ <;> rcases q with _ | _ | _ <;> simp [and]

theorem compare_eq_true_iff {p : α → β → Bool} {a : Option α} {b : Option β} :
    compare p a b = some true ↔ ∃ x y, a = some x ∧ b = some y ∧ p x y = true := by
  cases a <;> cases b <;> simp [compare]

theorem isNull_eq_true_iff {a : Option α} : isNull a = some true ↔ a = none := by
  cases a <;> simp [isNull]

end Truth

/-- `WHERE`: the rows whose condition is true. -/
def where_ (cond : α → Truth) (rows : List α) : List α := rows.filter (fun row => cond row == some true)

@[simp] theorem mem_where {cond : α → Truth} {rows : List α} {row : α} :
    row ∈ where_ cond rows ↔ row ∈ rows ∧ cond row = some true := by
  simp [where_]

/-! ## Names -/

/-- Each reference names exactly one of the columns; two columns of one name make it ambiguous. -/
def NamesResolve (columns refs : List String) : Prop := ∀ name ∈ refs, columns.count name = 1

instance (columns refs : List String) : Decidable (NamesResolve columns refs) :=
  inferInstanceAs (Decidable (∀ name ∈ refs, columns.count name = 1))

/-- If every column is referred to, their names must differ. -/
theorem namesResolve_self_iff {columns : List String} : NamesResolve columns columns ↔ columns.Nodup :=
  List.nodup_iff_count_eq_one.symm

theorem NamesResolve.subset {columns refs refs' : List String} (h : NamesResolve columns refs) (hsub : refs' ⊆ refs) :
    NamesResolve columns refs' := fun name hname => h name (hsub hname)

/-! ## Windows -/

section Windows

variable [DecidableEq ρ] [LinearOrder κ] {part : α → ρ} {key : α → κ}

/-- The first row of each partition. -/
def firstPerPartition (part : α → ρ) : List α → List α
  | []      => []
  | x :: xs => x :: (firstPerPartition part xs).filter (fun y => part y ≠ part x)

/-- `ORDER BY key DESC`. -/
def orderDesc (key : α → κ) (rows : List α) : List α := rows.insertionSort (fun a b => key b ≤ key a)

/-- `SELECT DISTINCT ON (part) … ORDER BY part, key DESC`. -/
def distinctOn (part : α → ρ) (key : α → κ) (rows : List α) : List α := firstPerPartition part (orderDesc key rows)

/-- `ROW_NUMBER()` of rows in order, after rows of the partitions `seen`. -/
def rowNumbers (part : α → ρ) : List ρ → List α → List (α × Nat)
  | _,    []      => []
  | seen, x :: xs => (x, seen.count (part x) + 1) :: rowNumbers part (part x :: seen) xs

/-- `SELECT … FROM (SELECT …, ROW_NUMBER() OVER (PARTITION BY part ORDER BY key DESC) AS rn …) WHERE rn = 1`. -/
def rowNumberOne (part : α → ρ) (key : α → κ) (rows : List α) : List α :=
  ((rowNumbers part [] (orderDesc key rows)).filter (fun row => row.2 = 1)).map Prod.fst

omit [LinearOrder κ] in
/-- A row has number one if no row of its partition came before it. -/
theorem rowNumbers_one (seen : List ρ) (rows : List α) :
    ((rowNumbers part seen rows).filter (fun row => row.2 = 1)).map Prod.fst =
      (firstPerPartition part rows).filter (fun y => part y ∉ seen) := by
  induction rows generalizing seen with
  | nil => rfl
  | cons x xs ih =>
      have hrest : (firstPerPartition part xs).filter (fun y => part y ∉ part x :: seen) =
          ((firstPerPartition part xs).filter (fun y => part y ≠ part x)).filter (fun y => part y ∉ seen) := by
        rw [List.filter_filter]
        apply List.filter_congr
        intro y _
        simp [Bool.and_comm]
      rw [rowNumbers, firstPerPartition]
      by_cases hseen : part x ∈ seen
      · have hcount : 0 < seen.count (part x) := List.count_pos_iff.mpr hseen
        rw [List.filter_cons_of_neg (by simp; omega), List.filter_cons_of_neg (by simpa using hseen), ih, hrest]
      · have hcount : seen.count (part x) = 0 := List.count_eq_zero_of_not_mem hseen
        rw [List.filter_cons_of_pos (by simp [hcount]), List.filter_cons_of_pos (by simpa using hseen),
          List.map_cons, ih, hrest]

/-- **The two spellings of the window are one.** -/
theorem rowNumberOne_eq (rows : List α) : rowNumberOne part key rows = distinctOn part key rows := by
  rw [rowNumberOne, rowNumbers_one, distinctOn]
  simp

omit [LinearOrder κ] in
theorem mem_of_mem_firstPerPartition {rows : List α} {e : α} (h : e ∈ firstPerPartition part rows) : e ∈ rows := by
  induction rows with
  | nil => exact h
  | cons x xs ih =>
      rcases List.mem_cons.mp h with rfl | h
      · exact List.mem_cons_self
      · exact List.mem_cons_of_mem _ (ih (List.mem_filter.mp h).1)

omit [LinearOrder κ] in
/-- Every partition has a first row. -/
theorem exists_firstPerPartition {rows : List α} {b : α} (h : b ∈ rows) :
    ∃ e ∈ firstPerPartition part rows, part e = part b := by
  induction rows with
  | nil => cases h
  | cons x xs ih =>
      by_cases hx : part x = part b
      · exact ⟨x, List.mem_cons_self, hx⟩
      · rcases List.mem_cons.mp h with rfl | h
        · exact absurd rfl hx
        · obtain ⟨e, he, hpart⟩ := ih h
          refine ⟨e, List.mem_cons_of_mem _ (List.mem_filter.mpr ⟨he, ?_⟩), hpart⟩
          rw [hpart]
          simpa using fun h => hx h.symm

omit [LinearOrder κ] in
theorem nodup_firstPerPartition (rows : List α) : ((firstPerPartition part rows).map part).Nodup := by
  induction rows with
  | nil => exact List.nodup_nil
  | cons x xs ih =>
      rw [firstPerPartition, List.map_cons, List.nodup_cons]
      constructor
      · intro hx
        obtain ⟨y, hy, hpart⟩ := List.mem_map.mp hx
        simpa [hpart] using (List.mem_filter.mp hy).2
      · exact (List.filter_sublist.map part).nodup ih

/-- In descending order the first row of a partition is a greatest one. -/
theorem le_of_mem_firstPerPartition {rows : List α} (hrows : rows.Pairwise (fun a b => key b ≤ key a)) {e b : α}
    (he : e ∈ firstPerPartition part rows) (hb : b ∈ rows) (hpart : part b = part e) : key b ≤ key e := by
  induction rows with
  | nil => cases hb
  | cons x xs ih =>
      obtain ⟨hx, hxs⟩ := List.pairwise_cons.mp hrows
      rcases List.mem_cons.mp he with rfl | he
      · rcases List.mem_cons.mp hb with rfl | hb
        · exact le_refl _
        · exact hx b hb
      · obtain ⟨he, hne⟩ := List.mem_filter.mp he
        rcases List.mem_cons.mp hb with rfl | hb
        · exact absurd hpart.symm (by simpa using hne)
        · exact ih hxs he hb

theorem mem_orderDesc {rows : List α} {e : α} : e ∈ orderDesc key rows ↔ e ∈ rows := List.mem_insertionSort _

theorem pairwise_orderDesc (rows : List α) : (orderDesc key rows).Pairwise (fun a b => key b ≤ key a) := by
  have htotal : ∀ a b : α, key b ≤ key a ∨ key a ≤ key b := fun a b => le_total _ _
  have htrans : ∀ a b c : α, key b ≤ key a → key c ≤ key b → key c ≤ key a := fun a b c h h' => h'.trans h
  have : Std.Total (fun a b : α => key b ≤ key a) := ⟨htotal⟩
  have : IsTrans α (fun a b : α => key b ≤ key a) := ⟨htrans⟩
  exact List.pairwise_insertionSort _ _

/-- No two rows of one partition share the key; copies of one row may be there. -/
def KeysDistinct (part : α → ρ) (key : α → κ) (rows : List α) : Prop :=
  ∀ a ∈ rows, ∀ b ∈ rows, part a = part b → key a = key b → a = b

omit [DecidableEq ρ] [LinearOrder κ] in
theorem KeysDistinct.subset {rows rows' : List α} (h : KeysDistinct part key rows) (hsub : rows' ⊆ rows) :
    KeysDistinct part key rows' := fun a ha b hb => h a (hsub ha) b (hsub hb)

omit [DecidableEq ρ] [LinearOrder κ] in
theorem KeysDistinct.filter {rows : List α} (h : KeysDistinct part key rows) (keep : ρ → Bool) :
    KeysDistinct part key (rows.filter (fun b => keep (part b))) := h.subset (fun _ hb => (List.mem_filter.mp hb).1)

theorem exists_distinctOn {rows : List α} {b : α} (h : b ∈ rows) : ∃ e ∈ distinctOn part key rows, part e = part b :=
  exists_firstPerPartition (mem_orderDesc.mpr h)

/-- A row with the greatest key of its partition. -/
def Greatest (part : α → ρ) (key : α → κ) (rows : List α) (e : α) : Prop :=
  e ∈ rows ∧ ∀ b ∈ rows, part b = part e → key b ≤ key e

/-- **What the window selects**: of each partition the row with the greatest key. -/
theorem mem_distinctOn {rows : List α} (h : KeysDistinct part key rows) {e : α} :
    e ∈ distinctOn part key rows ↔ Greatest part key rows e := by
  constructor
  · intro he
    refine ⟨mem_orderDesc.mp (mem_of_mem_firstPerPartition he), ?_⟩
    intro b hb hpart
    exact le_of_mem_firstPerPartition (pairwise_orderDesc rows) he (mem_orderDesc.mpr hb) hpart
  · rintro ⟨he, hmax⟩
    obtain ⟨f, hf, hpart⟩ : ∃ f ∈ distinctOn part key rows, part f = part e := exists_distinctOn he
    have hmem : f ∈ rows := mem_orderDesc.mp (mem_of_mem_firstPerPartition hf)
    have hle : key e ≤ key f :=
      le_of_mem_firstPerPartition (pairwise_orderDesc rows) hf (mem_orderDesc.mpr he) hpart.symm
    rw [h e he f hmem hpart.symm (le_antisymm hle (hmax f hmem hpart))]
    exact hf

theorem nodup_distinctOn (part : α → ρ) (key : α → κ) (rows : List α) : ((distinctOn part key rows).map part).Nodup := nodup_firstPerPartition _

omit [DecidableEq ρ] in
/-- The greatest row of a partition stays so among the rows of some partitions that are kept as a whole. -/
theorem greatest_filter {rows : List α} {keep : ρ → Bool} {e : α} :
    Greatest part key (rows.filter (fun b => keep (part b))) e ↔ Greatest part key rows e ∧ keep (part e) = true := by
  simp only [Greatest, List.mem_filter]
  constructor
  · rintro ⟨⟨he, hkeep⟩, hmax⟩
    exact ⟨⟨he, fun b hb hpart => hmax b ⟨hb, hpart ▸ hkeep⟩ hpart⟩, hkeep⟩
  · rintro ⟨⟨he, hmax⟩, hkeep⟩
    exact ⟨⟨he, hkeep⟩, fun b hb hpart => hmax b hb.1 hpart⟩

end Windows

/-! ## Joins -/

/-- `JOIN … ON`. -/
def innerJoin (on : α → β → Bool) (l : List α) (r : List β) : List (α × β) :=
  l.flatMap (fun a => (r.filter (on a)).map (fun b => (a, b)))

/-- `LEFT JOIN … ON`: a row without a partner is joined with NULLs. -/
def leftJoin (on : α → β → Bool) (l : List α) (r : List β) : List (α × Option β) :=
  l.flatMap (fun a => if (r.filter (on a)).isEmpty then [(a, none)] else (r.filter (on a)).map (fun b => (a, some b)))

theorem mem_leftJoin {on : α → β → Bool} {l : List α} {r : List β} {row : α × Option β} :
    row ∈ leftJoin on l r ↔
      row.1 ∈ l ∧ ((∃ b ∈ r, on row.1 b = true ∧ row.2 = some b) ∨ (row.2 = none ∧ ∀ b ∈ r, on row.1 b = false)) := by
  obtain ⟨a, o⟩ := row
  rw [leftJoin, List.mem_flatMap]
  constructor
  · rintro ⟨a', ha', hrow⟩
    split at hrow
    · rename_i hempty
      obtain ⟨rfl, rfl⟩ := Prod.mk.inj (List.mem_singleton.mp hrow)
      refine ⟨ha', .inr ⟨rfl, ?_⟩⟩
      intro b hb
      simpa using List.filter_eq_nil_iff.mp (List.isEmpty_iff.mp hempty) b hb
    · obtain ⟨b, hb, heq⟩ := List.mem_map.mp hrow
      obtain ⟨rfl, rfl⟩ := Prod.mk.inj heq
      exact ⟨ha', .inl ⟨b, (List.mem_filter.mp hb).1, (List.mem_filter.mp hb).2, rfl⟩⟩
  · rintro ⟨ha, ⟨b, hb, hon, rfl⟩ | ⟨rfl, hnone⟩⟩
    · refine ⟨a, ha, ?_⟩
      have hmem : b ∈ r.filter (on a) := List.mem_filter.mpr ⟨hb, hon⟩
      rw [if_neg (by simpa using List.ne_nil_of_mem hmem)]
      exact List.mem_map.mpr ⟨b, hmem, rfl⟩
    · refine ⟨a, ha, ?_⟩
      have hempty : r.filter (on a) = [] := List.filter_eq_nil_iff.mpr (fun b hb => by simp [hnone b hb])
      rw [if_pos (by simp [hempty])]
      exact List.mem_singleton_self _

/-- Where no row has two partners, the left rows of a left join are the left rows. -/
theorem map_fst_leftJoin {on : α → β → Bool} {l : List α} {r : List β} (h : ∀ a ∈ l, (r.filter (on a)).length ≤ 1) :
    (leftJoin on l r).map Prod.fst = l := by
  induction l with
  | nil => rfl
  | cons a l ih =>
      have hrest := ih (fun a' ha' => h a' (List.mem_cons_of_mem _ ha'))
      have hhead : (if (r.filter (on a)).isEmpty then [(a, none)]
          else (r.filter (on a)).map (fun b => (a, some b))).map Prod.fst = [a] := by
        match hmatch : r.filter (on a), h a List.mem_cons_self with
        | [],  _ => rfl
        | [_], _ => rfl
      rw [leftJoin, List.flatMap_cons, List.map_append, hhead]
      exact congrArg (fun rest => a :: rest) hrest

/-- Partners found by a key that the right rows do not repeat are at most one. -/
theorem length_filter_key_le_one [DecidableEq ρ] {part : β → ρ} {r : List β} (h : (r.map part).Nodup) (k : ρ) :
    (r.filter (fun b => part b = k)).length ≤ 1 := by
  induction r with
  | nil => simp
  | cons b r ih =>
      obtain ⟨hb, hr⟩ := List.nodup_cons.mp h
      by_cases hk : part b = k
      · have hempty : r.filter (fun b => part b = k) = [] := by
          refine List.filter_eq_nil_iff.mpr ?_
          intro c hc heq
          exact hb (List.mem_map.mpr ⟨c, hc, (of_decide_eq_true heq).trans hk.symm⟩)
        rw [List.filter_cons_of_pos (by simpa using hk), hempty]
        exact le_refl _
      · rw [List.filter_cons_of_neg (by simpa using hk)]
        exact ih hr

section Partner

variable [DecidableEq ρ] [LinearOrder κ] {part : β → ρ} {key : β → κ} {rows : List β} {r : ρ} {o : Option β}

/-- The partner of a partition in a table: its greatest row, or NULL if it has none. -/
def Partner (part : β → ρ) (key : β → κ) (rows : List β) (r : ρ) (o : Option β) : Prop :=
  (∃ b, Greatest part key rows b ∧ part b = r ∧ o = some b) ∨ (o = none ∧ ∀ b ∈ rows, part b ≠ r)

/-- A left join with the greatest rows of a table joins each row with its partner. -/
theorem mem_leftJoin_distinctOn (hrows : KeysDistinct part key rows) {left : α → ρ} {l : List α}
    {row : α × Option β} :
    row ∈ leftJoin (fun a b => decide (left a = part b)) l (distinctOn part key rows) ↔
      row.1 ∈ l ∧ Partner part key rows (left row.1) row.2 := by
  rw [mem_leftJoin]
  refine and_congr_right (fun _ => or_congr ?_ (and_congr_right (fun _ => ?_)))
  · constructor
    · rintro ⟨b, hb, hon, ho⟩
      exact ⟨b, (mem_distinctOn hrows).mp hb, (of_decide_eq_true hon).symm, ho⟩
    · rintro ⟨b, hb, hpart, ho⟩
      exact ⟨b, (mem_distinctOn hrows).mpr hb, decide_eq_true hpart.symm, ho⟩
  · constructor
    · intro hnone b hb hpart
      obtain ⟨e, he, hsame⟩ : ∃ e ∈ distinctOn part key rows, part e = part b := exists_distinctOn hb
      exact of_decide_eq_false (hnone e he) (hsame.trans hpart).symm
    · intro hnone b hb
      exact decide_eq_false (fun heq => hnone b ((mem_distinctOn hrows).mp hb).1 heq.symm)

omit [DecidableEq ρ] in
/-- What holds of the partner's key and below holds of the keys of the whole partition. -/
theorem Partner.forall_iff (h : Partner part key rows r o) {p : κ → Prop} (hp : ∀ x y, x ≤ y → p y → p x) :
    (∀ b ∈ o, p (key b)) ↔ ∀ b ∈ rows, part b = r → p (key b) := by
  rcases h with ⟨b, ⟨hb, hmax⟩, rfl, rfl⟩ | ⟨rfl, hnone⟩
  · simp only [Option.mem_some_iff, forall_eq']
    exact ⟨fun h c hc hpart => hp _ _ (hmax c hc hpart) h, fun h => h b hb rfl⟩
  · simp only [Option.not_mem_none, false_implies, implies_true, true_iff]
    exact fun b hb hpart => absurd hpart (hnone b hb)

omit [DecidableEq ρ] in
/-- A partition that is kept as a whole keeps its partner. -/
theorem partner_filter {keep : ρ → Bool} (hkeep : keep r = true) :
    Partner part key (rows.filter (fun b => keep (part b))) r o ↔ Partner part key rows r o := by
  refine or_congr ?_ (and_congr_right (fun _ => ?_))
  · constructor
    · rintro ⟨b, hb, hpart, ho⟩
      exact ⟨b, (greatest_filter.mp hb).1, hpart, ho⟩
    · rintro ⟨b, hb, rfl, ho⟩
      exact ⟨b, greatest_filter.mpr ⟨hb, hkeep⟩, rfl, ho⟩
  · simp only [List.mem_filter, and_imp]
    exact ⟨fun h b hb hpart => h b hb (hpart ▸ hkeep) hpart, fun h b hb _ => h b hb⟩

theorem exists_partner (hrows : KeysDistinct part key rows) (r : ρ) : ∃ o, Partner part key rows r o := by
  by_cases h : ∃ b ∈ rows, part b = r
  · obtain ⟨b, hb, rfl⟩ := h
    obtain ⟨e, he, hpart⟩ : ∃ e ∈ distinctOn part key rows, part e = part b := exists_distinctOn hb
    exact ⟨some e, .inl ⟨e, (mem_distinctOn hrows).mp he, hpart, rfl⟩⟩
  · exact ⟨none, .inr ⟨rfl, fun b hb hpart => h ⟨b, hb, hpart⟩⟩⟩

end Partner

end Relational
