import Mathlib.Algebra.BigOperators.Group.List.Basic
import Mathlib.Algebra.Order.BigOperators.Group.List
import Mathlib.Algebra.Ring.Int.Defs
import Mathlib.Data.List.Chain

/-!
# `Lib.GreedyCut` — cutting a list into pieces of bounded cost

Items arrive one after the other. The open piece takes the next item while its cost stays within the cap; otherwise
it is closed and the item opens a new piece. An item above the cap on its own is a piece of its own.

- **The cut** loses, adds and reorders nothing; pieces of more than one item are within the cap, and a piece is
  closed only because the next item did not fit (`spec_cut`).
- **Resuming.** What is closed stays closed: cutting more items later needs only the open piece (`cut_append`).
-/

namespace GreedyCut

variable {α : Type*} (cost : α → Int) (cap : Int)

/-- The pieces closed so far, the open piece and its cost. -/
structure State (α : Type*) where
  closed  : List (List α × Int)
  current : List α
  running : Int

/-- The next item. -/
def step (s : State α) (x : α) : State α :=
  if s.running + cost x > cap ∧ s.current ≠ [] then
    ⟨s.closed ++ [(s.current, s.running)], [x], cost x⟩
  else ⟨s.closed, s.current ++ [x], s.running + cost x⟩

def walk (xs : List α) : State α := xs.foldl (step cost cap) ⟨[], [], 0⟩

/-- The closed pieces and the open one. -/
def State.pieces (s : State α) : List (List α × Int) := s.closed ++ [(s.current, s.running)]

/-- The pieces with their costs. -/
def cut (xs : List α) : List (List α × Int) :=
  if xs.isEmpty then [] else (walk cost cap xs).pieces

/-- The cost of a list. -/
def total (xs : List α) : Int := (xs.map cost).sum

variable {cost cap}

@[simp] theorem cut_nil : cut cost cap ([] : List α) = [] := rfl

theorem cut_of_ne_nil {xs : List α} (h : xs ≠ []) : cut cost cap xs = (walk cost cap xs).pieces := by
  rw [cut, if_neg (by rwa [List.isEmpty_iff])]

theorem total_append (xs ys : List α) : total cost (xs ++ ys) = total cost xs + total cost ys := by
  simp [total]

theorem total_singleton (x : α) : total cost [x] = cost x := by simp [total]

theorem walk_snoc (xs : List α) (x : α) : walk cost cap (xs ++ [x]) = step cost cap (walk cost cap xs) x := by
  simp [walk]

/-! ## What a walk holds -/

/-- The next piece starts with an item that did not fit into this one. -/
def Overflows (cost : α → Int) (cap : Int) (piece next : List α × Int) : Prop :=
  ∃ x rest, next.1 = x :: rest ∧ cap < piece.2 + cost x

/-- A piece: not empty, with its cost, within the cap unless it is a single item. -/
structure Piece (cost : α → Int) (cap : Int) (piece : List α × Int) : Prop where
  nonempty : piece.1 ≠ []
  costs    : piece.2 = total cost piece.1
  bounded  : 1 < piece.1.length → piece.2 ≤ cap

/-- The pieces of a list, as the greedy cut leaves them. -/
structure Spec (cost : α → Int) (cap : Int) (xs : List α) (pieces : List (List α × Int)) : Prop where
  flatten : (pieces.map Prod.fst).flatten = xs
  piece   : ∀ piece ∈ pieces, Piece cost cap piece
  greedy  : pieces.IsChain (Overflows cost cap)

theorem walk_singleton (x : α) : walk cost cap [x] = ⟨[], [x], cost x⟩ := by
  simp [walk, step]

theorem current_ne_nil {xs : List α} (h : xs ≠ []) : (walk cost cap xs).current ≠ [] := by
  obtain ⟨ys, y, rfl⟩ := (List.eq_nil_or_concat' xs).resolve_left h
  rw [walk_snoc, step]
  split <;> simp

theorem Spec.close {s : State α} {xs : List α} (h : Spec cost cap xs s.pieces) {x : α} (hover : cap < s.running + cost x) :
    Spec cost cap (xs ++ [x]) (s.pieces ++ [([x], cost x)]) := by
  obtain ⟨hflatten, hpieces, hgreedy⟩ := h
  refine ⟨?_, ?_, ?_⟩
  · rw [List.map_append, List.flatten_append, hflatten]
    simp
  · intro piece hpiece
    rcases List.mem_append.mp hpiece with hpiece | hpiece
    · exact hpieces piece hpiece
    · rw [List.mem_singleton] at hpiece
      subst hpiece
      exact ⟨by simp, (total_singleton x).symm, by simp⟩
  · refine List.isChain_append.mpr ⟨hgreedy, List.isChain_singleton _, ?_⟩
    intro piece hpiece next hnext
    simp only [State.pieces, List.getLast?_append, List.getLast?_singleton, Option.some_or, Option.mem_some_iff]
      at hpiece
    simp only [List.head?_cons, Option.mem_some_iff] at hnext
    subst hpiece hnext
    exact ⟨x, [], rfl, hover⟩

/-- An item that fits extends the open piece, whose first item stays. -/
theorem Spec.extend {s : State α} {xs : List α} (h : Spec cost cap xs s.pieces) {x : α}
    (hfits : s.running + cost x ≤ cap) :
    Spec cost cap (xs ++ [x]) (s.closed ++ [(s.current ++ [x], s.running + cost x)]) := by
  obtain ⟨hflatten, hpieces, hgreedy⟩ := h
  have hcosts : s.running = total cost s.current :=
    (hpieces _ (List.mem_append_right _ List.mem_cons_self)).costs
  refine ⟨?_, ?_, ?_⟩
  · rw [← hflatten]
    simp [State.pieces]
  · intro piece hpiece
    rcases List.mem_append.mp hpiece with hpiece | hpiece
    · exact hpieces piece (List.mem_append_left _ hpiece)
    · rw [List.mem_singleton] at hpiece
      subst hpiece
      refine ⟨by simp, ?_, fun _ => hfits⟩
      show s.running + cost x = total cost (s.current ++ [x])
      rw [total_append, total_singleton, hcosts]
  · obtain ⟨hclosed, -, hlink⟩ := List.isChain_append.mp hgreedy
    refine List.isChain_append.mpr ⟨hclosed, List.isChain_singleton _, ?_⟩
    intro piece hpiece next hnext
    simp only [List.head?_cons, Option.mem_some_iff] at hnext
    subst hnext
    obtain ⟨z, rest, hhead, hover⟩ := hlink piece hpiece _ rfl
    exact ⟨z, rest ++ [x], congrArg (fun l => l ++ [x]) hhead, hover⟩

theorem spec_walk (xs : List α) (h : xs ≠ []) : Spec cost cap xs (walk cost cap xs).pieces := by
  -- By induction on the items that have come, the last one last.
  induction xs using List.reverseRecOn with
  | nil => exact absurd rfl h
  | append_singleton xs x ih =>
      by_cases hnil : xs = []
      · subst hnil
        rw [List.nil_append, walk_singleton]
        refine ⟨by simp [State.pieces], ?_, List.isChain_singleton _⟩
        intro piece hpiece
        rw [State.pieces, List.nil_append, List.mem_singleton] at hpiece
        subst hpiece
        exact ⟨by simp, (total_singleton x).symm, by simp⟩
      · have hcurrent : (walk cost cap xs).current ≠ [] := current_ne_nil hnil
        rw [walk_snoc, step]
        by_cases hover : (walk cost cap xs).running + cost x > cap
        · rw [if_pos ⟨hover, hcurrent⟩]
          exact (ih hnil).close hover
        · rw [if_neg (fun h => hover h.1)]
          exact (ih hnil).extend (by omega)

theorem spec_cut (xs : List α) : Spec cost cap xs (cut cost cap xs) := by
  by_cases h : xs = []
  · subst h
    exact ⟨rfl, by simp, List.isChain_nil⟩
  · rw [cut_of_ne_nil h]
    exact spec_walk xs h

/-! ## Resuming -/

theorem foldl_step (closed : List (List α × Int)) (current : List α) (running : Int) (xs : List α) :
    xs.foldl (step cost cap) ⟨closed, current, running⟩ =
      ⟨closed ++ (xs.foldl (step cost cap) ⟨[], current, running⟩).closed,
        (xs.foldl (step cost cap) ⟨[], current, running⟩).current,
        (xs.foldl (step cost cap) ⟨[], current, running⟩).running⟩ := by
  induction xs generalizing closed current running with
  | nil => simp
  | cons x xs ih =>
      simp only [List.foldl_cons, step]
      split
      · rw [ih, ih ([] ++ _)]
        simp
      · rw [ih]

theorem walk_current {xs : List α} (h : xs ≠ []) :
    walk cost cap (walk cost cap xs).current = ⟨[], (walk cost cap xs).current, (walk cost cap xs).running⟩ := by
  induction xs using List.reverseRecOn with
  | nil => exact absurd rfl h
  | append_singleton xs x ih =>
      by_cases hnil : xs = []
      · subst hnil
        rw [List.nil_append, walk_singleton, walk_singleton]
      · rw [walk_snoc, step]
        split
        · rw [walk_singleton]
        · rename_i hfits
          show walk cost cap ((walk cost cap xs).current ++ [x]) = _
          rw [walk_snoc, ih hnil, step, if_neg hfits]

theorem walk_append {xs : List α} (h : xs ≠ []) (ys : List α) :
    walk cost cap (xs ++ ys) =
      ⟨(walk cost cap xs).closed ++ (walk cost cap ((walk cost cap xs).current ++ ys)).closed,
        (walk cost cap ((walk cost cap xs).current ++ ys)).current,
        (walk cost cap ((walk cost cap xs).current ++ ys)).running⟩ := by
  have hrest : walk cost cap ((walk cost cap xs).current ++ ys) =
      ys.foldl (step cost cap) ⟨[], (walk cost cap xs).current, (walk cost cap xs).running⟩ := by
    rw [walk, List.foldl_append]
    exact congrArg (fun s => ys.foldl (step cost cap) s) (walk_current h)
  rw [hrest, ← foldl_step, walk, List.foldl_append]
  rfl

/-- **Resuming.** Cutting more items keeps the closed pieces and cuts on from the open one. -/
theorem cut_append {xs : List α} (h : xs ≠ []) (ys : List α) :
    cut cost cap (xs ++ ys) = (walk cost cap xs).closed ++ cut cost cap ((walk cost cap xs).current ++ ys) := by
  have hxs : xs ++ ys ≠ [] := by simp [h]
  have hcurrent : (walk cost cap xs).current ++ ys ≠ [] := by simp [current_ne_nil h]
  rw [cut_of_ne_nil hxs, cut_of_ne_nil hcurrent, walk_append h, State.pieces, State.pieces, List.append_assoc]

/-- The first piece of a resumed cut extends the open piece. -/
theorem exists_cut_current {xs : List α} (h : xs ≠ []) (ys : List α) :
    ∃ more bytes rest, cut cost cap ((walk cost cap xs).current ++ ys) =
      ((walk cost cap xs).current ++ more, bytes) :: rest := by
  have hcurrent : (walk cost cap xs).current ≠ [] := current_ne_nil h
  generalize hopen : walk cost cap xs = s at hcurrent
  have halone : walk cost cap s.current = ⟨[], s.current, s.running⟩ := by
    rw [← hopen]
    exact walk_current h
  -- Following the walk over `ys`: the open piece grows until it is closed.
  suffices hwalk : (∃ more bytes rest, (walk cost cap (s.current ++ ys)).closed = (s.current ++ more, bytes) :: rest) ∨
      ((walk cost cap (s.current ++ ys)).closed = [] ∧
        ∃ more, (walk cost cap (s.current ++ ys)).current = s.current ++ more) by
    rw [cut_of_ne_nil (by simp [hcurrent]), State.pieces]
    rcases hwalk with ⟨more, bytes, rest, hclosed⟩ | ⟨hclosed, more, hmore⟩
    · rw [hclosed]
      exact ⟨more, bytes, _, rfl⟩
    · rw [hclosed, hmore]
      exact ⟨more, _, [], rfl⟩
  induction ys using List.reverseRecOn with
  | nil =>
      rw [List.append_nil, halone]
      exact .inr ⟨rfl, [], by simp⟩
  | append_singleton ys y ih =>
      rw [← List.append_assoc, walk_snoc, step]
      rcases ih with ⟨more, bytes, rest, hclosed⟩ | ⟨hclosed, more, hmore⟩
      · left
        split
        · exact ⟨more, bytes, _, by rw [hclosed]; rfl⟩
        · exact ⟨more, bytes, rest, hclosed⟩
      · split
        · left
          exact ⟨more, (walk cost cap (s.current ++ ys)).running, [], by simp only [hclosed, hmore, List.nil_append]⟩
        · right
          exact ⟨hclosed, more ++ [y], by simp only [hmore, List.append_assoc]⟩

/-! ## The cap and the number of pieces -/

/-- A list cut into several pieces is above the cap, if no item has a negative cost. -/
theorem cap_lt_total {xs : List α} (hcost : ∀ x ∈ xs, 0 ≤ cost x) (h : 1 < (cut cost cap xs).length) :
    cap < total cost xs := by
  have hspec : Spec cost cap xs (cut cost cap xs) := spec_cut xs
  obtain ⟨hflatten, hpieces, hgreedy⟩ := hspec
  obtain ⟨first, next, rest, hcut⟩ : ∃ first next rest, cut cost cap xs = first :: next :: rest := by
    match hcut : cut cost cap xs, h with
    | first :: next :: rest, _ => exact ⟨first, next, rest, rfl⟩
  rw [hcut] at hflatten hpieces hgreedy
  obtain ⟨x, tail, hhead, hover⟩ := (List.isChain_cons_cons.mp hgreedy).1
  have hsplit : xs = first.1 ++ [x] ++ (tail ++ (rest.map Prod.fst).flatten) := by
    rw [← hflatten]
    simp [hhead]
  have hrest : 0 ≤ total cost (tail ++ (rest.map Prod.fst).flatten) := by
    refine List.sum_nonneg ?_
    intro c hc
    obtain ⟨y, hy, rfl⟩ := List.mem_map.mp hc
    exact hcost y (hsplit ▸ List.mem_append_right _ hy)
  rw [hsplit, total_append, total_append, total_singleton, ← (hpieces first List.mem_cons_self).costs]
  omega

end GreedyCut
