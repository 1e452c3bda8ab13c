import Mathlib.Data.List.Basic
import Mathlib.Logic.Function.Basic

/-!
# `Lib.Versions` — the versions of a row, by transaction

`commits` lists the committed transactions in commit order and `row x` is the version transaction `x` has written, at
most one. A reader at position `n` sees the version of the last of the first `n` transactions that wrote one
(`newestBelow`), a reader at the end the newest of all (`latest`).

What the rules say: how a commit and a write change what is read (`newestBelow_append`, `latest_append`,
`newestBelow_update`), and that a position already committed is not affected by later commits.
-/

namespace Versions

variable {X α : Type*} {commits : List X} {row : X → Option α} {n : Nat}

/-- The version a reader at position `n` sees. -/
def newestBelow (commits : List X) (row : X → Option α) (n : Nat) : Option α :=
  (commits.take n).reverse.findSome? row

/-- The version a reader at the end sees. -/
def latest (commits : List X) (row : X → Option α) : Option α := newestBelow commits row commits.length

theorem newestBelow_append (commits' : List X) (hn : n ≤ commits.length) :
    newestBelow (commits ++ commits') row n = newestBelow commits row n := by
  rw [newestBelow, newestBelow, List.take_append_of_le_length hn]

/-- A commit shows what its transaction wrote, over what was there. -/
theorem latest_append (x : X) : latest (commits ++ [x]) row = (row x).or (latest commits row) := by
  simp only [latest, newestBelow, List.take_length, List.reverse_append, List.reverse_singleton, List.singleton_append,
    List.findSome?_cons]
  cases row x <;> rfl

/-- Whatever is seen was written by a committed transaction. -/
theorem exists_of_newestBelow {a : α} (h : newestBelow commits row n = some a) : ∃ x ∈ commits, row x = some a := by
  obtain ⟨x, hx, ha⟩ := List.exists_of_findSome?_eq_some h
  exact ⟨x, List.mem_of_mem_take (List.mem_reverse.mp hx), ha⟩

/-- A reader right behind a transaction that wrote a version sees it. -/
theorem newestBelow_succ {x : X} {a : α} (hx : commits[n]? = some x) (ha : row x = some a) :
    newestBelow commits row (n + 1) = some a := by
  rw [newestBelow, List.take_add_one, hx, Option.toList_some, List.reverse_append, List.reverse_singleton,
    List.singleton_append, List.findSome?_cons, ha]

section Update

variable [DecidableEq X]

/-- A write of a transaction that has not committed is not seen. -/
theorem newestBelow_update_of_not_mem {x : X} (hx : x ∉ commits) (v : Option α) :
    newestBelow commits (Function.update row x v) n = newestBelow commits row n := by
  have hne : ∀ y ∈ (commits.take n).reverse, y ≠ x := by
    rintro y hy rfl
    exact hx (List.mem_of_mem_take (List.mem_reverse.mp hy))
  unfold newestBelow
  generalize (commits.take n).reverse = l at hne
  induction l with
  | nil => rfl
  | cons y l ih =>
      rw [List.findSome?_cons, List.findSome?_cons, Function.update_of_ne (hne y List.mem_cons_self),
        ih (fun z hz => hne z (List.mem_cons_of_mem y hz))]

/-- A write under a committed transaction is what is seen, or is not seen at all. -/
theorem newestBelow_update (x : X) (a : α) :
    newestBelow commits (Function.update row x (some a)) n = some a ∨
      newestBelow commits (Function.update row x (some a)) n = newestBelow commits row n := by
  unfold newestBelow
  generalize (commits.take n).reverse = l
  induction l with
  | nil => exact .inr rfl
  | cons y l ih =>
      by_cases hy : y = x
      · subst hy
        left
        rw [List.findSome?_cons, Function.update_self]
      · rw [List.findSome?_cons, List.findSome?_cons, Function.update_of_ne hy]
        cases row y with
        | none => exact ih
        | some b => exact .inr rfl

end Update

end Versions
