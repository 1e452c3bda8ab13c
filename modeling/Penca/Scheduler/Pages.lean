import Mathlib.Algebra.Ring.Int.Defs
import Mathlib.Algebra.Ring.Nat
import Mathlib.Data.List.Basic

/-!
# `Scheduler.Pages` — draining a paged listing

The scheduler reads every listing page by page. The server cuts a page at an offset out of whatever its query returns at that
moment (`LIMIT page_size + 1 OFFSET offset`) and hands out the next offset as a token; `paginate_all` asks until no token
comes back.

Rows that come into the listing between two pages can make a page repeat rows, but not skip any: `paginateAll_complete`.
Rows that leave it, or that move behind later ones, do make it skip.
-/

namespace Penca.Scheduler

variable {T : Type}

/-! ## Page tokens -/

/-- `str::parse::<i64>`: a sign or none, decimal digits, within the range of an `i64`. -/
def parseI64 (text : String) : Option Int :=
  let chars := text.toList
  let signed := chars.head? = some '-' ∨ chars.head? = some '+'
  let digits := if signed then chars.tail else chars
  let magnitude : Int := Nat.ofDigitChars 10 digits 0
  let value := if chars.head? = some '-' then -magnitude else magnitude
  if digits ≠ [] ∧ digits.all Char.isDigit ∧ -2 ^ 63 ≤ value ∧ value < 2 ^ 63 then some value else none

def decodePageToken (token : String) : Int :=
  if token = "" then 0 else (parseI64 token).getD 0

def encodePageToken (offset : Int) : String := toString offset

theorem parseI64_repr {n : Nat} (hn : n < 2 ^ 63) : parseI64 (Nat.repr n) = some (n : Int) := by
  have hdigits : ∀ c ∈ Nat.toDigits 10 n, c.isDigit = true := fun c hc =>
    Nat.isDigit_of_mem_toDigits (by decide) (by decide) hc
  have hhead : ∀ c : Char, c.isDigit = false → (Nat.toDigits 10 n).head? ≠ some c := by
    intro c hc hsome
    rw [hdigits c (List.mem_of_mem_head? hsome)] at hc
    cases hc
  simp only [parseI64, Nat.toList_repr, hhead '-' (by decide), hhead '+' (by decide), or_self, if_false,
    Nat.ofDigitChars_ten_toDigits]
  exact if_pos ⟨Nat.toDigits_ne_nil, List.all_eq_true.mpr hdigits, by omega, by omega⟩

theorem encodePageToken_ne (n : Nat) : encodePageToken n ≠ "" := by
  intro h
  have hlist : Nat.toDigits 10 n = [] := by
    rw [← Nat.toList_repr]
    exact congrArg String.toList h
  exact Nat.toDigits_ne_nil hlist

/-- A token brings back the offset it was made of. -/
theorem decode_encodePageToken {n : Nat} (hn : n < 2 ^ 63) : decodePageToken (encodePageToken n) = n := by
  rw [decodePageToken, if_neg (encodePageToken_ne n)]
  show (parseI64 (Nat.repr n)).getD 0 = n
  rw [parseI64_repr hn]
  rfl

/-! ## The server's page -/

structure PaginationRequest where
  pageSize  : Int
  pageToken : String

/-- `pagination_from_request`: the size and the offset of the page asked for. -/
def paginationFromRequest (pagination : Option PaginationRequest) (defaultPageSize : Int) : Int × Int :=
  match pagination with
  | some p => (if 0 < p.pageSize then p.pageSize else defaultPageSize, decodePageToken p.pageToken)
  | none   => (defaultPageSize, 0)

/-- `take_page_and_next_token`. The casts to `usize` wrap. -/
def takePageAndNextToken (rows : List T) (pageSize offset : Int) : List T × Option String :=
  (rows.take (pageSize % 2 ^ 64).toNat,
    if pageSize < rows.length then some (encodePageToken (offset + pageSize)) else none)

/-- A list call over the rows its query would return without a limit. Postgres refuses a negative `LIMIT` or `OFFSET`. -/
def listPage (defaultPageSize : Int) (listing : List T) (pagination : PaginationRequest) : Option (List T × Option String) :=
  let page := paginationFromRequest (some pagination) defaultPageSize
  if page.1 + 1 < 0 ∨ page.2 < 0 then none
  else some (takePageAndNextToken ((listing.drop page.2.toNat).take (page.1 + 1).toNat) page.1 page.2)

/-! ## The client's loop -/

/-- What became of a drain: it still asks for pages, a call failed with some `Status`, or it returned. -/
inductive Drained (T : Type) where
  | running
  | failed
  | done (items : List T)
  deriving DecidableEq

/-- `paginate_all`. `fetch` is indexed by the calls made, since the server answers each from the state it finds. -/
def paginateAll (pageSize : Int) (fetch : Nat → PaginationRequest → Option (List T × Option String)) :
    Nat → Nat → List T → String → Drained T
  | 0,        _,    _,   _         => .running
  | fuel + 1, call, out, pageToken =>
      match fetch call ⟨pageSize, pageToken⟩ with
      | none               => .failed
      | some (items, next) =>
          -- an absent and an empty token end the loop alike
          if next.getD "" = "" then .done (out ++ items)
          else paginateAll pageSize fetch fuel (call + 1) (out ++ items) (next.getD "")

section Drain

variable {pageSize defaultPageSize : Int} {p : Nat}

theorem exists_pageSize (hpage : pageSize < 2 ^ 31) (hdefault : 0 < defaultPageSize) (hdefault' : defaultPageSize < 2 ^ 63) :
    ∃ p : Nat, (if 0 < pageSize then pageSize else defaultPageSize) = p ∧ 0 < p ∧ p < 2 ^ 63 := by
  by_cases hpos : 0 < pageSize
  · exact ⟨pageSize.toNat, by rw [if_pos hpos]; omega, by omega, by omega⟩
  · exact ⟨defaultPageSize.toNat, by rw [if_neg hpos]; omega, by omega, by omega⟩

section

variable (hsize : (if 0 < pageSize then pageSize else defaultPageSize) = p) (hp : p < 2 ^ 63)
include hsize hp

/-- The page at an offset, in natural numbers. -/
theorem listPage_eq {listing : List T} {token : String} {o : Nat} (htoken : decodePageToken token = o) :
    listPage defaultPageSize listing ⟨pageSize, token⟩ =
      some ((listing.drop o).take p, if o + p < listing.length then some (encodePageToken (o + p : Nat)) else none) := by
  have hnonneg : ¬ ((p : Int) + 1 < 0 ∨ (o : Int) < 0) := by omega
  have husize : ((p : Int) % 2 ^ 64).toNat = p := by omega
  have hlimit : ((p : Int) + 1).toNat = p + 1 := by omega
  simp only [listPage, paginationFromRequest, hsize, htoken, if_neg hnonneg, takePageAndNextToken, husize, hlimit,
    Int.toNat_natCast, List.take_take, List.length_take, List.length_drop]
  rw [Nat.min_eq_left (Nat.le_succ p)]
  congr 2
  by_cases hmore : o + p < listing.length
  · rw [if_pos hmore, if_pos (by omega), Int.natCast_add]
  · rw [if_neg hmore, if_neg (by omega)]

/-- The last call of the loop. -/
theorem paginateAll_last {listing : Nat → List T} {call : Nat} {out : List T} {token : String}
    (htoken : decodePageToken token = out.length) (hlast : ¬ out.length + p < (listing call).length) (fuel : Nat) :
    paginateAll pageSize (fun i => listPage defaultPageSize (listing i)) fuel call out token =
      if fuel ≤ 0 then .running else .done (out ++ (listing call).drop out.length) := by
  have hall : ((listing call).drop out.length).take p = (listing call).drop out.length := by
    refine List.take_of_length_le ?_
    rw [List.length_drop]
    omega
  cases fuel with
  | zero => rfl
  | succ fuel =>
      simp only [paginateAll, listPage_eq hsize hp htoken]
      rw [if_neg hlast, Option.getD_none, if_pos rfl, if_neg (Nat.not_succ_le_zero fuel), hall]

/-- The loop from a page on: `j` further calls before the last one. Each of them leaves a full page behind it and a row
    before it, so there are fewer of them than rows. -/
theorem paginateAll_from (hpos : 0 < p) {listing : Nat → List T} (hgrows : ∀ i, (listing i).Sublist (listing (i + 1)))
    {n : Nat} (hbound : ∀ i, (listing i).length ≤ n) (hn : n < 2 ^ 63) (rest call : Nat) (out : List T) (token : String)
    (htoken : decodePageToken token = out.length) (hout : out.length ≤ (listing call).length)
    (hsub : ∀ x ∈ out, x ∈ listing call) (hrest : n ≤ out.length + rest) :
    ∃ items j, (j = 0 ∨ out.length + j < n) ∧
      (∀ fuel, paginateAll pageSize (fun i => listPage defaultPageSize (listing i)) fuel call out token =
        if fuel ≤ j then .running else .done items) ∧
      (out ++ (listing call).drop out.length).Sublist items ∧ items.length ≤ (listing (call + j)).length ∧
      ∀ x ∈ items, x ∈ listing (call + j) := by
  induction rest generalizing call out token with
  | zero =>
      have hle := hbound call
      have hdrop : (listing call).drop out.length = [] := List.drop_of_length_le (by omega)
      have hlast : ¬ out.length + p < (listing call).length := by omega
      have hdone := paginateAll_last hsize hp htoken hlast
      rw [hdrop, List.append_nil] at hdone ⊢
      exact ⟨out, 0, .inl rfl, hdone, List.Sublist.refl _, hout, hsub⟩
  | succ rest ih =>
      have hpage : ∀ k, ∀ x ∈ out ++ ((listing call).drop out.length).take k, x ∈ listing call := by
        intro k x hx
        rcases List.mem_append.mp hx with hx | hx
        · exact hsub x hx
        · exact List.mem_of_mem_drop (List.mem_of_mem_take hx)
      have hle := hbound call
      by_cases hmore : out.length + p < (listing call).length
      · -- a full page: the rest of this listing is in the rest of the next one
        have hlen : (out ++ ((listing call).drop out.length).take p).length = out.length + p := by
          rw [List.length_append, List.length_take, List.length_drop]
          omega
        have hnext := (hgrows call).length_le
        obtain ⟨items, j, hj, hdone, hitems, hlast⟩ := ih (call + 1) _ (encodePageToken (out.length + p : Nat))
          (by rw [decode_encodePageToken (by omega), hlen]) (by omega) (fun x hx => (hgrows call).subset (hpage p x hx))
          (by omega)
        refine ⟨items, j + 1, .inr (by omega), fun fuel => ?_, List.Sublist.trans ?_ hitems, ?_⟩
        · cases fuel with
          | zero => rfl
          | succ fuel =>
              simp only [paginateAll, listPage_eq hsize hp htoken]
              rw [if_pos hmore, Option.getD_some, if_neg (encodePageToken_ne _), hdone fuel]
              simp only [Nat.add_le_add_iff_right]
        · rw [hlen, List.append_assoc]
          refine List.Sublist.append_left ?_ out
          calc (listing call).drop out.length
              = ((listing call).drop out.length).take p ++ (listing call).drop (out.length + p) := by
                rw [← List.drop_drop, List.take_append_drop]
            List.Sublist _ (((listing call).drop out.length).take p ++ (listing (call + 1)).drop (out.length + p)) :=
                List.Sublist.append_left ((hgrows call).drop _) _
        · rwa [Nat.add_right_comm, Nat.add_assoc] at hlast
      · have hmem := hpage (listing call).length
        rw [List.take_of_length_le (by rw [List.length_drop]; omega)] at hmem
        refine ⟨_, 0, .inl rfl, paginateAll_last hsize hp htoken hmore, List.Sublist.refl _, ?_, hmem⟩
        rw [List.length_append, List.length_drop]
        exact Nat.le_of_eq (Nat.add_sub_of_le hout)

end

/-- **A drain is complete.** If rows only come into the listing while it is drained, wherever they stand, the drain ends
    with its call `k`, after no more calls than rows (one if there is none), with all rows the first page's query found, in
    their order, and with no other and no more rows than the listing of the last call. -/
theorem paginateAll_complete (hpage : pageSize < 2 ^ 31) (hdefault : 0 < defaultPageSize) (hdefault' : defaultPageSize < 2 ^ 63)
    (listing : Nat → List T) (hgrows : ∀ i, (listing i).Sublist (listing (i + 1))) {n : Nat}
    (hbound : ∀ i, (listing i).length ≤ n) (hn : n < 2 ^ 63) :
    ∃ items k, k < max 1 n ∧
      (∀ fuel, paginateAll pageSize (fun i => listPage defaultPageSize (listing i)) fuel 0 [] "" =
        if fuel ≤ k then .running else .done items) ∧
      (listing 0).Sublist items ∧ items.length ≤ (listing k).length ∧ ∀ x ∈ items, x ∈ listing k := by
  obtain ⟨p, hsize, hpos, hp⟩ := exists_pageSize hpage hdefault hdefault'
  obtain ⟨items, k, hk, hdone, hitems, hlast⟩ := paginateAll_from hsize hp hpos hgrows hbound hn n 0 [] "" rfl
    (Nat.zero_le _) (by simp) (by simp)
  rw [Nat.zero_add] at hlast
  refine ⟨items, k, ?_, hdone, hitems, hlast⟩
  rcases hk with rfl | hk
  · omega
  · rw [List.length_nil] at hk
    omega

end Drain

/-- Row 2 comes in after the first page: row 3 is returned twice. -/
theorem paginateAll_complete_insertedRow :
    paginateAll 2 (fun i => listPage 100 (if i = 0 then [1, 3, 5] else [1, 2, 3, 5])) 5 0 [] "" = .done [1, 3, 3, 5] ∧
    ∃ items k, k < 4 ∧
      (∀ fuel, paginateAll 2 (fun i => listPage 100 (if i = 0 then [1, 3, 5] else [1, 2, 3, 5])) fuel 0 [] "" =
        if fuel ≤ k then .running else .done items) ∧
      [1, 3, 5].Sublist items ∧ items.length ≤ (if k = 0 then [1, 3, 5] else [1, 2, 3, 5]).length ∧
      ∀ x ∈ items, x ∈ (if k = 0 then [1, 3, 5] else [1, 2, 3, 5]) := by
  refine ⟨by decide +kernel, paginateAll_complete (by decide) (by decide) (by decide)
    (fun i => if i = 0 then [1, 3, 5] else [1, 2, 3, 5]) (n := 4) ?_ ?_ (by decide)⟩
  · intro i
    cases i <;> simp
  · intro i
    cases i <;> simp

/-- Row 1 moves to the end after the first page: row 2 is skipped. -/
example : paginateAll 1 (fun i => listPage 100 (if i = 0 then [1, 2, 3] else [2, 3, 1])) 5 0 [] "" = .done [1, 3, 1] := by
  decide +kernel

end Penca.Scheduler
