import Mathlib.Data.List.Sort
import Mathlib.Order.Compare

/-!
# `Lib.SortedSeek` — seeking the slots of a sorted table that equal a probe

A table of `n` slots is compared with a probe by `ord : Nat → Ordering`, slot by slot. `lowerBound` is the binary search for
the first slot that is not less, `scanRun` the scan over the equal slots from there. On an ascending table the two
together find every equal slot: `seekRun_eq_filter`.

A table of tuples is compared lexicographically (`cmpTuple`), also with probes shorter than its tuples; if it is sorted the
comparison is ascending (`ascending_cmpTuple`). `dedupAdjacent` drops repeated neighbours; of a sorted list it leaves the elements, each once.
-/

namespace SortedSeek

/-! ## Binary search and scan -/

/-- The slots `0, …, n - 1` go up against the probe: first those below it, then the equal ones, then those above. -/
structure Ascending (n : Nat) (ord : Nat → Ordering) : Prop where
  below : ∀ i j, i ≤ j → j < n → ord j = .lt → ord i = .lt
  above : ∀ i j, i ≤ j → j < n → ord i = .gt → ord j = .gt

/-- Lower-bound binary search over `[lo, hi)`: every round halves the interval. -/
def lowerBound (ord : Nat → Ordering) : Nat → Nat → Nat → Nat
  | 0,        lo, _  => lo
  | fuel + 1, lo, hi =>
      if lo < hi then
        let mid := lo + (hi - lo) / 2
        if ord mid = .lt then lowerBound ord fuel (mid + 1) hi else lowerBound ord fuel lo mid
      else lo

/-- The equal slots from `i` on, up to the first that is not. -/
def scanRun (ord : Nat → Ordering) : Nat → Nat → List Nat
  | 0,        _ => []
  | fuel + 1, i => if ord i = .eq then i :: scanRun ord fuel (i + 1) else []

/-- Search, then scan. -/
def seekRun (n : Nat) (ord : Nat → Ordering) : List Nat :=
  let lo := lowerBound ord n 0 n
  scanRun ord (n - lo) lo

section Search

variable {n : Nat} {ord : Nat → Ordering}

/-- What the search keeps of its interval. -/
structure Bounds (n : Nat) (ord : Nat → Ordering) (lo hi : Nat) : Prop where
  le     : lo ≤ hi
  inside : hi ≤ n
  below  : ∀ i, i < lo → ord i = .lt
  above  : ∀ i, hi ≤ i → i < n → ord i ≠ .lt

theorem bounds_lowerBound (h : Ascending n ord) {fuel lo hi : Nat} (hb : Bounds n ord lo hi) (hfuel : hi - lo ≤ fuel) :
    Bounds n ord (lowerBound ord fuel lo hi) (lowerBound ord fuel lo hi) := by
  induction fuel generalizing lo hi with
  | zero =>
      have heq : hi = lo := by
        have := hb.le
        omega
      rw [lowerBound]
      exact heq ▸ hb
  | succ fuel ih =>
      rw [lowerBound]
      have hle := hb.le
      have hinside := hb.inside
      by_cases hlt : lo < hi
      · rw [if_pos hlt]
        dsimp only
        have hmid : lo + (hi - lo) / 2 < hi := by omega
        by_cases hless : ord (lo + (hi - lo) / 2) = .lt
        · rw [if_pos hless]
          refine ih ⟨by omega, hinside, fun i hi' => ?_, hb.above⟩ (by omega)
          exact h.below i _ (by omega) (by omega) hless
        · rw [if_neg hless]
          refine ih ⟨by omega, by omega, hb.below, fun i hle' hin hcmp => ?_⟩ (by omega)
          exact hless (h.below _ i hle' hin hcmp)
      · rw [if_neg hlt]
        have heq : hi = lo := by omega
        exact heq ▸ hb

theorem mem_scanRun (h : Ascending n ord) {fuel i : Nat} (hfuel : i + fuel = n) (hfrom : ∀ j, i ≤ j → j < n → ord j ≠ .lt)
    {j : Nat} : j ∈ scanRun ord fuel i ↔ i ≤ j ∧ j < n ∧ ord j = .eq := by
  induction fuel generalizing i with
  | zero =>
      simp only [scanRun, List.not_mem_nil, false_iff]
      omega
  | succ fuel ih =>
      rw [scanRun]
      by_cases heq : ord i = .eq
      · rw [if_pos heq, List.mem_cons, ih (by omega) (fun j hj => hfrom j (by omega))]
        constructor
        · rintro (rfl | ⟨hle, hlt, hj⟩)
          · exact ⟨le_rfl, by omega, heq⟩
          · exact ⟨by omega, hlt, hj⟩
        · rintro ⟨hle, hlt, hj⟩
          rcases Nat.eq_or_lt_of_le hle with rfl | hgt
          · exact .inl rfl
          · exact .inr ⟨hgt, hlt, hj⟩
      · -- The first slot that is not equal is above the probe, and so are all after it.
        rw [if_neg heq]
        simp only [List.not_mem_nil, false_iff]
        rintro ⟨hle, hlt, hj⟩
        have hnlt := hfrom i le_rfl (by omega)
        cases hi : ord i with
        | lt => exact hnlt hi
        | eq => exact heq hi
        | gt =>
            rw [h.above i j hle hlt hi] at hj
            cases hj

theorem pairwise_scanRun (ord : Nat → Ordering) (fuel i : Nat) :
    (scanRun ord fuel i).Pairwise (· < ·) ∧ ∀ j ∈ scanRun ord fuel i, i ≤ j := by
  induction fuel generalizing i with
  | zero => simp [scanRun]
  | succ fuel ih =>
      rw [scanRun]
      split
      · obtain ⟨hpair, hle⟩ := ih (i + 1)
        refine ⟨List.pairwise_cons.mpr ⟨fun j hj => hle j hj, hpair⟩, fun j hj => ?_⟩
        rcases List.mem_cons.mp hj with rfl | hj
        · exact le_rfl
        · exact (Nat.le_succ i).trans (hle j hj)
      · simp

/-- **A seek finds the equal slots**, in order. -/
theorem seekRun_eq_filter (h : Ascending n ord) : seekRun n ord = (List.range n).filter (fun i => ord i = .eq) := by
  have hb : Bounds n ord (lowerBound ord n 0 n) (lowerBound ord n 0 n) :=
    bounds_lowerBound h ⟨Nat.zero_le _, le_rfl, fun i hi => absurd hi (Nat.not_lt_zero i),
      fun i hle hlt => absurd hlt (not_lt.mpr hle)⟩ (by omega)
  refine List.Perm.eq_of_pairwise (fun a b _ _ (hab : a < b) (hba : b < a) => absurd hab (lt_asymm hba))
    (pairwise_scanRun _ _ _).1 (List.pairwise_lt_range.filter _) ?_
  refine (List.perm_ext_iff_of_nodup ((pairwise_scanRun _ _ _).1.imp ne_of_lt)
    ((List.nodup_range).filter _)).mpr (fun j => ?_)
  have hinside := hb.inside
  rw [mem_scanRun h (by omega) hb.above, List.mem_filter, List.mem_range, decide_eq_true_eq]
  constructor
  · rintro ⟨-, hlt, hj⟩
    exact ⟨hlt, hj⟩
  · rintro ⟨hlt, hj⟩
    refine ⟨?_, hlt, hj⟩
    by_contra hle
    rw [hb.below j (not_le.mp hle)] at hj
    cases hj

end Search

/-! ## Tables sorted by tuples -/

section Tuples

variable {α : Type*} [LinearOrder α]

/-- Lexicographic comparison up to the end of the shorter tuple. -/
def cmpTuple : List α → List α → Ordering
  | a :: t, b :: u => (cmp a b).then (cmpTuple t u)
  | _,      _      => .eq

theorem cmpTuple_nil (t : List α) : cmpTuple t [] = .eq := by cases t <;> rfl

theorem cmpTuple_cons (a b : α) (t u : List α) : cmpTuple (a :: t) (b :: u) = (cmp a b).then (cmpTuple t u) := rfl

theorem cmpTuple_cons_eq_lt {a b : α} {t u : List α} :
    cmpTuple (a :: t) (b :: u) = .lt ↔ a < b ∨ a = b ∧ cmpTuple t u = .lt := by
  rw [cmpTuple_cons, Ordering.then_eq_lt, cmp_eq_lt_iff, cmp_eq_eq_iff]

theorem cmpTuple_cons_eq_gt {a b : α} {t u : List α} :
    cmpTuple (a :: t) (b :: u) = .gt ↔ b < a ∨ a = b ∧ cmpTuple t u = .gt := by
  rw [cmpTuple_cons, Ordering.then_eq_gt, cmp_eq_gt_iff, cmp_eq_eq_iff]

/-- A tuple equals a probe that is no longer if it starts with it. -/
theorem cmpTuple_eq_eq {t probe : List α} (h : probe.length ≤ t.length) :
    cmpTuple t probe = .eq ↔ t.take probe.length = probe := by
  induction probe generalizing t with
  | nil => simp [cmpTuple_nil]
  | cons b probe ih =>
      match t with
      | [] => simp at h
      | a :: t =>
          rw [cmpTuple_cons, Ordering.then_eq_eq, cmp_eq_eq_iff, ih (by simpa using h), List.length_cons,
            List.take_succ_cons, List.cons.injEq]

theorem cmpTuple_self (t : List α) : cmpTuple t t = .eq := by
  induction t with
  | nil => rfl
  | cons a t ih => rw [cmpTuple_cons, cmp_self_eq_eq, ih]; rfl

theorem swap_cmpTuple (t u : List α) : (cmpTuple t u).swap = cmpTuple u t := by
  induction t generalizing u with
  | nil => cases u <;> rfl
  | cons a t ih =>
      cases u with
      | nil => rfl
      | cons b u => rw [cmpTuple_cons, cmpTuple_cons, Ordering.swap_then, cmp_swap, ih]

theorem cmpTuple_take (t probe : List α) : cmpTuple (t.take probe.length) probe = cmpTuple t probe := by
  induction probe generalizing t with
  | nil => cases t <;> rfl
  | cons b probe ih =>
      match t with
      | [] => rfl
      | a :: t => rw [List.length_cons, List.take_succ_cons, cmpTuple_cons, cmpTuple_cons, ih]

theorem cmpTuple_lt_of_le {t u probe : List α} (hlen : t.length = u.length) (hle : cmpTuple t u ≠ .gt)
    (hlt : cmpTuple u probe = .lt) : cmpTuple t probe = .lt := by
  induction probe generalizing t u with
  | nil => cases u <;> cases hlt
  | cons b probe ih =>
      match t, u with
      | _, [] => cases hlt
      | [], _ :: _ => simp at hlen
      | a :: t, c :: u =>
          rw [Ne, cmpTuple_cons_eq_gt, not_or, not_and] at hle
          rw [cmpTuple_cons_eq_lt] at hlt ⊢
          rcases hlt with hlt | ⟨rfl, hlt⟩
          · exact .inl ((not_lt.mp hle.1).trans_lt hlt)
          · rcases (not_lt.mp hle.1).lt_or_eq with hac | rfl
            · exact .inl hac
            · exact .inr ⟨rfl, ih (by simpa using hlen) (hle.2 rfl) hlt⟩

theorem cmpTuple_gt_of_le {t u probe : List α} (hlen : t.length = u.length) (hle : cmpTuple t u ≠ .gt)
    (hgt : cmpTuple t probe = .gt) : cmpTuple u probe = .gt := by
  induction probe generalizing t u with
  | nil => cases t <;> cases hgt
  | cons b probe ih =>
      match t, u with
      | [], _ => cases hgt
      | _ :: _, [] => simp at hlen
      | a :: t, c :: u =>
          rw [Ne, cmpTuple_cons_eq_gt, not_or, not_and] at hle
          rw [cmpTuple_cons_eq_gt] at hgt ⊢
          rcases hgt with hgt | ⟨rfl, hgt⟩
          · exact .inl (hgt.trans_le (not_lt.mp hle.1))
          · rcases (not_lt.mp hle.1).lt_or_eq with hac | rfl
            · exact .inl hac
            · exact .inr ⟨rfl, ih (by simpa using hlen) (hle.2 rfl) hgt⟩

/-- **A sorted table goes up against a probe**, also one shorter than its tuples. -/
theorem ascending_cmpTuple {n width : Nat} {tuple : Nat → List α} (hwidth : ∀ i, (tuple i).length = width)
    (hsorted : ∀ i j, i ≤ j → j < n → cmpTuple (tuple i) (tuple j) ≠ .gt) (probe : List α) :
    Ascending n (fun i => cmpTuple (tuple i) probe) where
  below := fun i j hij hj => cmpTuple_lt_of_le ((hwidth i).trans (hwidth j).symm) (hsorted i j hij hj)
  above := fun i j hij hj => cmpTuple_gt_of_le ((hwidth i).trans (hwidth j).symm) (hsorted i j hij hj)

end Tuples

/-! ## Dropping repeated neighbours -/

section Dedup

variable {α : Type*} [LinearOrder α]

/-- Keep the last of every run of equal neighbours. -/
def dedupAdjacent : List α → List α
  | []          => []
  | [a]         => [a]
  | a :: b :: l => if a = b then dedupAdjacent (b :: l) else a :: dedupAdjacent (b :: l)

theorem mem_dedupAdjacent {a : α} (l : List α) : a ∈ dedupAdjacent l ↔ a ∈ l := by
  induction l using dedupAdjacent.induct with
  | case1 => rfl
  | case2 => rfl
  | case3 b l ih =>
      rw [dedupAdjacent, if_pos rfl, ih]
      simp
  | case4 b c l hne ih => rw [dedupAdjacent, if_neg hne, List.mem_cons, ih, List.mem_cons (a := a) (b := b)]

theorem pairwise_dedupAdjacent {l : List α} (h : l.Pairwise (· ≤ ·)) : (dedupAdjacent l).Pairwise (· < ·) := by
  induction l using dedupAdjacent.induct with
  | case1 => exact .nil
  | case2 a => exact List.pairwise_singleton _ _
  | case3 b l ih =>
      rw [dedupAdjacent, if_pos rfl]
      exact ih (List.pairwise_cons.mp h).2
  | case4 b c l hne ih =>
      obtain ⟨hhead, htail⟩ := List.pairwise_cons.mp h
      rw [dedupAdjacent, if_neg hne]
      refine List.pairwise_cons.mpr ⟨fun a ha => ?_, ih htail⟩
      have hbc : b < c := lt_of_le_of_ne (hhead c List.mem_cons_self) hne
      rcases List.mem_cons.mp ((mem_dedupAdjacent _).mp ha) with rfl | ha
      · exact hbc
      · exact hbc.trans_le ((List.pairwise_cons.mp htail).1 a ha)

end Dedup

end SortedSeek
