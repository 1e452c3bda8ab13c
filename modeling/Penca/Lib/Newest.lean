import Mathlib.Data.List.MinMax
import Mathlib.Data.List.Sort
import Mathlib.Data.Set.Function
import Mathlib.Logic.Function.Basic

/-!
# `Lib.Newest` — newest-wins resolution and log replay

A log is a list of entries; each entry has a `key` in a linear order (its version), belongs to a `row`
and has an `effect` on that row (`some v`: the row now holds `v`, `none`: the row is gone). Replaying the
log in key order leaves each row with the effect of its newest entry, so a reader that finds the newest
entry of a row by any other route (an index, a merge of tiers, a set of overlapping copies) agrees with
the replay.

## Contents
- **`IsNewest`**: the newest element of a set, and `newest`, which computes it on a list.
- **`replay`**: the fold of a log in key order, and its pointwise value (`replay_apply`).
- **`outcome`**: what the newest entry of a row says, a function of the *set* of entries only.
-/

namespace Newest

variable {α κ ρ β : Type*} [LinearOrder κ] {key : α → κ}

/-! ## The newest element of a set -/

/-- `a` is a newest element of `S` under `key`. -/
def IsNewest (key : α → κ) (S : Set α) (a : α) : Prop := a ∈ S ∧ ∀ b ∈ S, key b ≤ key a

/-- The newest member of a list, the first of several. -/
def newest (key : α → κ) (l : List α) : Option α := l.argmax key

@[simp] theorem newest_nil : newest key [] = none := rfl

@[simp] theorem newest_eq_none {l : List α} : newest key l = none ↔ l = [] := List.argmax_eq_none

theorem isNewest_of_newest {l : List α} {a : α} (h : newest key l = some a) : IsNewest key {b | b ∈ l} a :=
  ⟨List.argmax_mem h, fun _ hb => List.le_of_mem_argmax hb h⟩

theorem mem_of_newest {l : List α} {a : α} (h : newest key l = some a) : a ∈ l := (isNewest_of_newest h).1

/-- Where the key separates the members of the list, one member is the newest. -/
theorem newest_eq_some_iff {l : List α} (hinj : Set.InjOn key {b | b ∈ l}) {a : α} :
    newest key l = some a ↔ IsNewest key {b | b ∈ l} a := by
  constructor
  · exact fun h => isNewest_of_newest h
  · rintro ⟨ha, hmax⟩
    cases hm : newest key l with
    | none =>
        rw [newest_eq_none] at hm
        subst hm
        exact absurd ha (by simp)
    | some m =>
        obtain ⟨hml, hmm⟩ := isNewest_of_newest hm
        rw [hinj hml ha (le_antisymm (hmax m hml) (hmm a ha))]

/-- A list with one member, possibly repeated, has that member as its newest. -/
theorem newest_eq_some_of_forall_eq {l : List α} {a : α} (ha : a ∈ l) (h : ∀ b ∈ l, b = a) :
    newest key l = some a := by
  have hinj : Set.InjOn key {b | b ∈ l} := fun b hb c hc _ => (h b hb).trans (h c hc).symm
  exact (newest_eq_some_iff hinj).mpr ⟨ha, fun b hb => (h b hb ▸ le_refl _)⟩

/-- Members appended behind do not replace a newest member they do not exceed. -/
theorem newest_append_of_forall_le {l l' : List α} {a : α} (ha : newest key l = some a)
    (h : ∀ b ∈ l', key b ≤ key a) : newest key (l ++ l') = some a := by
  induction l' using List.reverseRecOn with
  | nil => rwa [List.append_nil]
  | append_singleton l' b ih =>
      have hprev := ih (fun c hc => h c (List.mem_append_left _ hc))
      rw [← List.append_assoc, newest, List.argmax_concat]
      unfold newest at hprev
      rw [hprev]
      exact if_neg (not_lt_of_ge (h b (by simp)))

/-- The newest element of a set is the newest element of every part of it that contains it. -/
theorem IsNewest.subset {S T : Set α} {a : α} (h : IsNewest key T a) (hS : S ⊆ T) (ha : a ∈ S) :
    IsNewest key S a :=
  ⟨ha, fun b hb => h.2 b (hS hb)⟩

/-! ## What the newest entry of a row says -/

section Separated

variable {α κ ρ : Type*} {key : α → κ} {row : α → ρ}

/-- Entries of one row with one key are one entry. -/
def Separated (key : α → κ) (row : α → ρ) (S : Set α) : Prop :=
  ∀ a ∈ S, ∀ b ∈ S, row a = row b → key a = key b → a = b

theorem Separated.mono {S T : Set α} (h : Separated key row T) (hS : S ⊆ T) :
    Separated key row S :=
  fun a ha b hb => h a (hS ha) b (hS hb)

theorem Separated.injOn_filter [DecidableEq ρ] {es : List α}
    (h : Separated key row {e | e ∈ es}) (r : ρ) :
    Set.InjOn key {b | b ∈ es.filter (fun e => row e = r)} := by
  intro a ha b hb hk
  simp only [Set.mem_ofPred_eq, List.mem_filter, decide_eq_true_eq] at ha hb
  exact h a ha.1 b hb.1 (ha.2.trans hb.2.symm) hk

end Separated

section Outcome

variable [DecidableEq ρ] {row : α → ρ} {effect : α → Option β}

/-- The effect of the newest entry of row `r` in the log; `none` when the log does not mention `r`. -/
def outcome (key : α → κ) (row : α → ρ) (effect : α → Option β) (es : List α) (r : ρ) : Option β :=
  (newest key (es.filter (fun e => row e = r))).bind effect

/-- The outcome of a row is the effect of its newest entry. -/
theorem outcome_eq_effect {es : List α} (hsep : Separated key row {e | e ∈ es}) {a : α}
    (h : IsNewest key {e | e ∈ es ∧ row e = row a} a) :
    outcome key row effect es (row a) = effect a := by
  have hnew : IsNewest key {b | b ∈ es.filter (fun e => row e = row a)} a := by
    simpa [IsNewest] using h
  rw [outcome, (newest_eq_some_iff (hsep.injOn_filter (row a))).mpr hnew, Option.bind_some]

theorem outcome_eq_none {es : List α} {r : ρ} (h : ∀ e ∈ es, row e ≠ r) :
    outcome key row effect es r = none := by
  have hnil : es.filter (fun e => row e = r) = [] := by simpa using h
  rw [outcome, hnil, newest_nil, Option.bind_none]

theorem exists_isNewest {es : List α} {r : ρ} (h : ∃ e ∈ es, row e = r) :
    ∃ a, row a = r ∧ IsNewest key {e | e ∈ es ∧ row e = r} a := by
  obtain ⟨e, he, hr⟩ := h
  cases hm : newest key (es.filter (fun e => row e = r)) with
  | none =>
      rw [newest_eq_none, List.filter_eq_nil_iff] at hm
      exact absurd hr (by simpa using hm e he)
  | some a =>
      have hnew := isNewest_of_newest hm
      simp only [IsNewest, Set.mem_ofPred_eq, List.mem_filter, decide_eq_true_eq] at hnew
      exact ⟨a, hnew.1.2, hnew⟩

/-- **The outcome depends on the entries of the row only**, not on their order or multiplicity. -/
theorem outcome_congr {es fs : List α} {r : ρ} (hsep : Separated key row {e | e ∈ fs})
    (h : ∀ e, row e = r → (e ∈ es ↔ e ∈ fs)) :
    outcome key row effect es r = outcome key row effect fs r := by
  have hmem : ∀ e, e ∈ es.filter (fun e => row e = r) ↔ e ∈ fs.filter (fun e => row e = r) := by
    intro e
    simp only [List.mem_filter, decide_eq_true_eq]
    exact ⟨fun he => ⟨(h e he.2).mp he.1, he.2⟩, fun he => ⟨(h e he.2).mpr he.1, he.2⟩⟩
  have hset : {b | b ∈ es.filter (fun e => row e = r)} =
      {b | b ∈ fs.filter (fun e => row e = r)} := Set.ext hmem
  have hinj := hsep.injOn_filter r
  have hnewest : newest key (es.filter (fun e => row e = r)) =
      newest key (fs.filter (fun e => row e = r)) := by
    apply Option.ext
    intro a
    rw [newest_eq_some_iff (hset ▸ hinj), newest_eq_some_iff hinj, hset]
  simp only [outcome, hnewest]

/-- **Dropping older entries is invisible.** A part of the log that keeps the newest entry of a row has
    the outcome of the whole log at that row. -/
theorem outcome_eq_of_subset {es fs : List α} (hsep : Separated key row {e | e ∈ fs})
    (hsub : ∀ e ∈ es, e ∈ fs) {a : α} (ha : a ∈ es)
    (hnew : IsNewest key {e | e ∈ fs ∧ row e = row a} a) :
    outcome key row effect es (row a) = outcome key row effect fs (row a) := by
  have hpart : IsNewest key {e | e ∈ es ∧ row e = row a} a :=
    hnew.subset (fun e he => ⟨hsub e he.1, he.2⟩) ⟨ha, rfl⟩
  rw [outcome_eq_effect (hsep.mono hsub) hpart, outcome_eq_effect hsep hnew]

/-- `part` holds everything of `whole` outside `base`, and `base` is the older part of `whole`. -/
structure Covers (key : α → κ) (base : α → Prop) (part whole : List α) : Prop where
  sub : ∀ a ∈ part, a ∈ whole
  above : ∀ a ∈ whole, ¬ base a → a ∈ part
  older : ∀ a ∈ whole, ∀ b ∈ whole, base a → ¬ base b → key a ≤ key b

/-- **A part that mentions a row outside the base knows it.** -/
theorem Covers.outcome_eq {base : α → Prop} {part whole : List α} (h : Covers key base part whole)
    (hsep : Separated key row {e | e ∈ whole}) {a : α} (ha : a ∈ part) (hbase : ¬ base a) :
    outcome key row effect part (row a) = outcome key row effect whole (row a) := by
  obtain ⟨b, hrow, hnew⟩ : ∃ b, row b = row a ∧ IsNewest key {e | e ∈ whole ∧ row e = row a} b :=
    exists_isNewest ⟨a, h.sub a ha, rfl⟩
  have hb : b ∈ part := by
    by_cases hbb : base b
    · have hle := h.older b hnew.1.1 a (h.sub a ha) hbb hbase
      have hge := hnew.2 a ⟨h.sub a ha, rfl⟩
      exact hsep b hnew.1.1 a (h.sub a ha) hrow (le_antisymm hle hge) ▸ ha
    · exact h.above b hnew.1.1 hbb
  rw [← hrow] at hnew ⊢
  exact outcome_eq_of_subset hsep h.sub hb hnew

end Outcome

/-! ## Replay -/

section Replay

variable [DecidableEq ρ] {row : α → ρ} {effect : α → Option β}

/-- Apply one entry to the state of the rows. -/
def applyEntry (row : α → ρ) (effect : α → Option β) (m : ρ → Option β) (e : α) : ρ → Option β :=
  Function.update m (row e) (effect e)

/-- Replay a log: apply its entries in increasing key order to the empty table. -/
def replay (key : α → κ) (row : α → ρ) (effect : α → Option β) (es : List α) : ρ → Option β :=
  (es.insertionSort (fun a b => key a ≤ key b)).foldl (applyEntry row effect) (fun _ => none)

/-- Folding a sorted log leaves each row with the effect of its newest entry. -/
theorem foldl_applyEntry_eq_outcome {es : List α} (hsep : Separated key row {e | e ∈ es})
    (hsorted : es.Pairwise (fun a b => key a ≤ key b)) (r : ρ) :
    es.foldl (applyEntry row effect) (fun _ => none) r = outcome key row effect es r := by
  -- On the last entry: it is the newest of its row, and leaves the other rows alone.
  induction es using List.reverseRecOn with
  | nil => rfl
  | append_singleton es e ih =>
      have hsub : ∀ b ∈ es, b ∈ es ++ [e] := fun b hb => List.mem_append_left _ hb
      obtain ⟨hes, -, hlast⟩ := List.pairwise_append.mp hsorted
      have ih := ih (hsep.mono hsub) hes
      rw [List.foldl_append, List.foldl_cons, List.foldl_nil, applyEntry]
      by_cases hr : row e = r
      · subst hr
        have hnew : IsNewest key {b | b ∈ es ++ [e] ∧ row b = row e} e := by
          refine ⟨by simp, ?_⟩
          rintro b ⟨hb, -⟩
          rcases List.mem_append.mp hb with hb | hb
          · exact hlast b hb e (by simp)
          · rw [List.mem_singleton.mp hb]
        rw [Function.update_self, outcome_eq_effect hsep hnew]
      · rw [Function.update_of_ne (Ne.symm hr), ih]
        refine outcome_congr hsep (fun b hb => ⟨hsub b, fun hmem => ?_⟩)
        rcases List.mem_append.mp hmem with hmem | hmem
        · exact hmem
        · rw [List.mem_singleton.mp hmem] at hb
          exact absurd hb hr

/-- **Replay is newest-wins**: after the replay a row holds what its newest entry says. -/
theorem replay_apply {es : List α} (hsep : Separated key row {e | e ∈ es}) (r : ρ) :
    replay key row effect es r = outcome key row effect es r := by
  have hmem : ∀ e, e ∈ es.insertionSort (fun a b => key a ≤ key b) ↔ e ∈ es :=
    fun e => List.mem_insertionSort _
  have hsorted : (es.insertionSort (fun a b => key a ≤ key b)).Pairwise
      (fun a b => key a ≤ key b) := by
    have : Std.Total (fun a b : α => key a ≤ key b) := ⟨fun a b => le_total (key a) (key b)⟩
    have : IsTrans α (fun a b : α => key a ≤ key b) := ⟨fun _ _ _ => le_trans⟩
    exact List.pairwise_insertionSort _ _
  have hsep' : Separated key row {e | e ∈ es.insertionSort (fun a b => key a ≤ key b)} :=
    hsep.mono (fun e he => (hmem e).mp he)
  rw [replay, foldl_applyEntry_eq_outcome hsep' hsorted]
  exact outcome_congr hsep (fun e _ => hmem e)

end Replay

end Newest
