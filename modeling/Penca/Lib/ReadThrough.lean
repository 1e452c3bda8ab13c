import Mathlib.Data.Set.Function
import Penca.Lib.InFlight

/-!
# `Lib.ReadThrough` — a read-through cache keyed by a function of the value

`fetch key cache x` is what a reader gets who wants `x` and looks it up by `key x`: the cached value under
that key, or `x` itself, which is then cached. A cache is `Faithful` to the values `S` that exist when each
of its entries is one of them under its own key. The reader gets `x` as long as no other value of `S` has
the key of `x` (`fetch_eq`).
-/

namespace ReadThrough

variable {κ β : Type*} [DecidableEq κ] {key : β → κ} {S T : Set β} {cache : List (κ × β)} {x : β}

/-- Look `x` up by its key; on a miss, cache it. -/
def fetch (key : β → κ) (cache : List (κ × β)) (x : β) : β × List (κ × β) :=
  match cache.lookup (key x) with
  | some hit => (hit, cache)
  | none     => (x, (key x, x) :: cache)

/-- Every entry is an existing value under its own key. -/
def Faithful (key : β → κ) (S : Set β) (cache : List (κ × β)) : Prop :=
  ∀ e ∈ cache, e.2 ∈ S ∧ key e.2 = e.1

omit [DecidableEq κ] in
theorem faithful_nil : Faithful key S [] := by simp [Faithful]

omit [DecidableEq κ] in
/-- New values do not invalidate entries. -/
theorem Faithful.mono (hf : Faithful key S cache) (h : S ⊆ T) : Faithful key T cache :=
  fun e he => ⟨h (hf e he).1, (hf e he).2⟩

omit [DecidableEq κ] in
/-- Nor does eviction. -/
theorem Faithful.filter (hf : Faithful key S cache) (p : κ × β → Bool) :
    Faithful key S (cache.filter p) :=
  fun e he => hf e (List.mem_of_mem_filter he)

theorem Faithful.fetch (hf : Faithful key S cache) (hx : x ∈ S) : Faithful key S (fetch key cache x).2 := by
  unfold ReadThrough.fetch
  split
  · exact hf
  · intro e he
    rcases List.mem_cons.mp he with rfl | he
    · exact ⟨hx, rfl⟩
    · exact hf e he

/-- **Transparency.** If the key tells the existing values apart, a reader gets what it asked for. -/
theorem fetch_eq (hinj : Set.InjOn key S) (hf : Faithful key S cache) (hx : x ∈ S) :
    (fetch key cache x).1 = x := by
  unfold fetch
  split
  · rename_i hit hlookup
    obtain ⟨hmem, hkey⟩ := hf _ (InFlight.mem_of_lookup hlookup)
    exact hinj hmem hx hkey
  · rfl

end ReadThrough
