import Mathlib.Data.List.Pairwise
import Mathlib.Data.List.Sort

/-!
# `Lib.Numbered` — a log numbered without gaps

A log whose entries carry consecutive numbers from `first` on, appended at the end and never changed. A part of it
that survives elsewhere (a log trimmed from below) has the same stretch of numbers as the full log wherever it
lost nothing (`filter_eq_of_sublist`), and a stretch is determined by the numbers of its first and last entry
(`filter_eq_of_ends`).
-/

namespace NumberedLog

variable {α : Type*} {key : α → Int} {first : Int} {l : List α}

/-- The numbers of the entries are `first`, `first + 1`, … -/
def Numbered (key : α → Int) (first : Int) (l : List α) : Prop :=
  l.map key = (List.range l.length).map (fun i : Nat => first + (i : Int))

theorem nil : Numbered key first [] := rfl

theorem Numbered.append {x : α} (h : Numbered key first l) (hx : key x = first + l.length) :
    Numbered key first (l ++ [x]) := by
  unfold Numbered at h ⊢
  rw [List.map_append, h, List.length_append, List.length_singleton, List.range_succ, List.map_append,
    List.map_singleton, List.map_singleton, hx]

/-- Exactly the numbers from `first` up to the length of the log are used. -/
theorem Numbered.exists_key_iff (h : Numbered key first l) {n : Int} :
    (∃ x ∈ l, key x = n) ↔ first ≤ n ∧ n < first + l.length := by
  rw [← List.mem_map, h, List.mem_map]
  constructor
  · rintro ⟨i, hi, rfl⟩
    have := List.mem_range.mp hi
    omega
  · rintro ⟨hle, hlt⟩
    exact ⟨(n - first).toNat, List.mem_range.mpr (by omega), by omega⟩

theorem Numbered.pairwise (h : Numbered key first l) : l.Pairwise (fun a b => key a < key b) := by
  have hmap : (l.map key).Pairwise (· < ·) := by
    rw [h, List.pairwise_map]
    exact List.pairwise_lt_range.imp (fun hlt => by omega)
  exact List.pairwise_map.mp hmap

theorem Numbered.nodup (h : Numbered key first l) : l.Nodup :=
  h.pairwise.imp (fun hlt heq => absurd (heq ▸ hlt) (lt_irrefl _))

/-! ## Parts of a log -/

/-- A trimmed log has every stretch of the log of which it lost nothing. -/
theorem filter_eq_of_sublist {l' : List α} {p : α → Bool} (hsub : l'.Sublist l) (hnodup : l.Nodup)
    (hkept : ∀ x ∈ l, p x = true → x ∈ l') : l'.filter p = l.filter p := by
  induction hsub with
  | slnil => rfl
  | @cons l' l a hsub ih =>
      obtain ⟨hnot, hnodup⟩ := List.nodup_cons.mp hnodup
      have hp : ¬ p a = true := fun hpa => hnot (hsub.subset (hkept a List.mem_cons_self hpa))
      rw [List.filter_cons_of_neg hp]
      exact ih hnodup (fun x hx => hkept x (List.mem_cons_of_mem _ hx))
  | @cons_cons l' l a hsub ih =>
      obtain ⟨hnot, hnodup⟩ := List.nodup_cons.mp hnodup
      have htail : l'.filter p = l.filter p := by
        refine ih hnodup (fun x hx hpx => ?_)
        rcases List.mem_cons.mp (hkept x (List.mem_cons_of_mem _ hx) hpx) with rfl | hx'
        · exact absurd hx hnot
        · exact hx'
      rw [List.filter_cons, List.filter_cons, htail]

/-- In a stretch of increasing numbers every entry lies between the first and the last. -/
theorem key_bounds {x : α} {xs : List α} (h : (x :: xs).Pairwise (fun a b => key a < key b)) {y : α}
    (hy : y ∈ x :: xs) : key x ≤ key y ∧ key y ≤ key ((x :: xs).getLast (List.cons_ne_nil x xs)) := by
  induction xs generalizing x y with
  | nil =>
      obtain rfl := List.mem_singleton.mp hy
      exact ⟨le_refl _, le_refl _⟩
  | cons a xs ih =>
      obtain ⟨hx, htail⟩ := List.pairwise_cons.mp h
      rw [List.getLast_cons (List.cons_ne_nil a xs)]
      rcases List.mem_cons.mp hy with rfl | hy
      · exact ⟨le_refl _, (hx a List.mem_cons_self).le.trans (ih htail List.mem_cons_self).2⟩
      · exact ⟨(hx y hy).le, (ih htail hy).2⟩

/-- A stretch of a log is the part between the numbers of its first and last entry. -/
theorem filter_eq_of_ends {x : α} {xs : List α} {lo hi : Int} (hpair : l.Pairwise (fun a b => key a < key b))
    (h : x :: xs = l.filter (fun y => decide (lo < key y) && decide (key y ≤ hi))) :
    x :: xs = l.filter (fun y => decide (key x ≤ key y) &&
      decide (key y ≤ key ((x :: xs).getLast (List.cons_ne_nil x xs)))) := by
  have hmem : ∀ y, y ∈ x :: xs ↔ y ∈ l ∧ lo < key y ∧ key y ≤ hi := by
    intro y
    rw [h, List.mem_filter, Bool.and_eq_true, decide_eq_true_eq, decide_eq_true_eq]
  have hsorted : (x :: xs).Pairwise (fun a b => key a < key b) := h ▸ hpair.filter _
  have hfirst := ((hmem x).mp List.mem_cons_self).2
  have hlast := ((hmem _).mp (List.getLast_mem (List.cons_ne_nil x xs))).2
  refine h.trans (List.filter_congr (fun y hy => ?_))
  rw [Bool.eq_iff_iff]
  simp only [Bool.and_eq_true, decide_eq_true_eq]
  constructor
  · exact fun hin => key_bounds hsorted ((hmem y).mpr ⟨hy, hin⟩)
  · rintro ⟨hge, hle⟩
    omega

end NumberedLog
